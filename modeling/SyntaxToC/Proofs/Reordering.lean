import SyntaxToC.Proofs.Decoding
import SyntaxToC.Proofs.Writing

/-!
# The order of members

Two values that differ only in the order of members are equally deep and denote the same tree,
as long as no object has a key twice:

    Reordered v w → v.Distinct → Decodes v t → Decodes w t      (Decodes.reordered)
-/

namespace SyntaxToC.Json

/-! ## Members by key -/

theorem Members.get?_eq_some_iff_mem {ms : Members} (h : (ms.map Prod.fst).Nodup) {key : String}
    {v : Value} : ms.get? key = some v ↔ (key, v) ∈ ms := by
  induction ms with
  | nil => simp [get?]
  | cons m ms ih =>
    obtain ⟨k, w⟩ := m
    rw [List.map_cons, List.nodup_cons] at h
    obtain ⟨hk, hms⟩ := h
    by_cases hkey : key = k
    · subst hkey
      have hnot : (key, v) ∉ ms := fun hmem => hk (List.mem_map.2 ⟨_, hmem, rfl⟩)
      simp [get?, hnot, eq_comm]
    · have hbeq : (key == k) = false := beq_eq_false_iff_ne.2 hkey
      have ih' := ih hms
      simp only [get?] at ih'
      simp [get?, List.lookup_cons, hbeq, ih', hkey]

/-! ## Corresponding parts -/

theorem ReorderedItems.refl (vs : List Value) : ReorderedItems vs vs := by
  induction vs with
  | nil => exact .nil
  | cons v vs ih => exact .cons (.refl v) ih

theorem ReorderedMembers.refl (ms : Members) : ReorderedMembers ms ms := by
  induction ms with
  | nil => exact .nil
  | cons m ms ih => exact .cons (.refl m.2) ih

theorem ReorderedItems.exists_left {vs ws : List Value} (h : ReorderedItems vs ws) {w : Value}
    (hw : w ∈ ws) : ∃ v ∈ vs, Reordered v w := by
  induction vs generalizing ws with
  | nil =>
    cases h
    cases hw
  | cons v vs ih =>
    cases h with
    | cons hv hvs =>
      rcases List.mem_cons.1 hw with rfl | hw
      · exact ⟨v, List.mem_cons_self, hv⟩
      · obtain ⟨x, hx, hxw⟩ := ih hvs hw
        exact ⟨x, List.mem_cons_of_mem v hx, hxw⟩

theorem ReorderedMembers.keys_eq {ms ns : Members} (h : ReorderedMembers ms ns) :
    ns.map Prod.fst = ms.map Prod.fst := by
  induction ms generalizing ns with
  | nil =>
    cases h
    rfl
  | cons m ms ih =>
    cases h with
    | cons _ hms => rw [List.map_cons, List.map_cons, ih hms]

theorem ReorderedMembers.nodup_keys {ms ns ns' : Members} (h : ReorderedMembers ms ns)
    (hperm : ns.Perm ns') (hkeys : (ms.map Prod.fst).Nodup) : (ns'.map Prod.fst).Nodup := by
  rw [← (hperm.map Prod.fst).nodup_iff, h.keys_eq]
  exact hkeys

theorem ReorderedMembers.exists_left {ms ns : Members} (h : ReorderedMembers ms ns) {key : String}
    {w : Value} (hw : (key, w) ∈ ns) : ∃ v, (key, v) ∈ ms ∧ Reordered v w := by
  induction ms generalizing ns with
  | nil =>
    cases h
    cases hw
  | cons m ms ih =>
    cases h with
    | cons hv hms =>
      rcases List.mem_cons.1 hw with h | hw
      · cases h
        exact ⟨_, List.mem_cons_self, hv⟩
      · obtain ⟨v, hmem, hvw⟩ := ih hms hw
        exact ⟨v, List.mem_cons_of_mem _ hmem, hvw⟩

theorem ReorderedMembers.exists_right {ms ns : Members} (h : ReorderedMembers ms ns) {key : String}
    {v : Value} (hv : (key, v) ∈ ms) : ∃ w, (key, w) ∈ ns ∧ Reordered v w := by
  induction ms generalizing ns with
  | nil => cases hv
  | cons m ms ih =>
    cases h with
    | cons hw hms =>
      rcases List.mem_cons.1 hv with h | hv
      · cases h
        exact ⟨_, List.mem_cons_self, hw⟩
      · obtain ⟨w, hmem, hvw⟩ := ih hms hv
        exact ⟨w, List.mem_cons_of_mem _ hmem, hvw⟩

namespace Reordered

theorem bool_inv {b : Bool} {w : Value} (h : Reordered (.bool b) w) : w = .bool b := by
  cases h
  rfl

theorem string_inv {s : String} {w : Value} (h : Reordered (.string s) w) : w = .string s := by
  cases h
  rfl

theorem array_inv {vs : List Value} {w : Value} (h : Reordered (.array vs) w) :
    ∃ ws, w = .array ws ∧ ReorderedItems vs ws := by
  cases h with
  | refl => exact ⟨vs, rfl, .refl vs⟩
  | array hvs => exact ⟨_, rfl, hvs⟩

theorem object_inv {ms : Members} {w : Value} (h : Reordered (.object ms) w) :
    ∃ ns ns', w = .object ns' ∧ ReorderedMembers ms ns ∧ ns.Perm ns' := by
  cases h with
  | refl => exact ⟨ms, ms, rfl, .refl ms, .refl ms⟩
  | object hms hperm => exact ⟨_, _, rfl, hms, hperm⟩

theorem distinct {v w : Value} (h : Reordered v w) (hv : v.Distinct) : w.Distinct := by
  induction hv generalizing w with
  | null =>
    cases h
    exact .null
  | bool b =>
    cases h
    exact .bool b
  | number n =>
    cases h
    exact .number n
  | string s =>
    cases h
    exact .string s
  | array _ ih =>
    obtain ⟨ws, rfl, hitems⟩ := h.array_inv
    refine .array fun x hx => ?_
    obtain ⟨y, hy, hyx⟩ := hitems.exists_left hx
    exact ih y hy hyx
  | object hkeys _ ih =>
    obtain ⟨ns, ns', rfl, hms, hperm⟩ := h.object_inv
    refine .object (hms.nodup_keys hperm hkeys) fun n hn => ?_
    obtain ⟨y, hy, hyx⟩ := hms.exists_left (hperm.mem_iff.2 hn)
    exact ih (n.1, y) hy hyx

/-- The member under a key is there after reordering, reordered itself. -/
theorem get? {v w x : Value} (h : Reordered v w) (hv : v.Distinct) {key : String}
    (hx : v.get? key = some x) : x.Distinct ∧ ∃ y, w.get? key = some y ∧ Reordered x y := by
  cases v with
  | object ms =>
    obtain ⟨ns, ns', rfl, hms, hperm⟩ := h.object_inv
    cases hv with
    | object hkeys hmembers =>
      have hmem := (Members.get?_eq_some_iff_mem hkeys).1 hx
      obtain ⟨y, hy, hxy⟩ := hms.exists_right hmem
      have hget := (Members.get?_eq_some_iff_mem (hms.nodup_keys hperm hkeys)).2
        (hperm.mem_iff.1 hy)
      exact ⟨hmembers _ hmem, y, hget, hxy⟩
  | _ => cases hx

end Reordered

/-! ## Depth -/

theorem Value.membersDepth_perm {ms ns : Members} (h : ms.Perm ns) :
    membersDepth ms = membersDepth ns := by
  induction h with
  | nil => rfl
  | cons m _ ih => rw [membersDepth, membersDepth, ih]
  | swap m n ms => simp only [membersDepth, Nat.max_left_comm]
  | trans _ _ ih₁ ih₂ => exact ih₁.trans ih₂

theorem ReorderedItems.depth_eq {vs ws : List Value} (h : ReorderedItems vs ws)
    (ih : ∀ v ∈ vs, ∀ {w}, Reordered v w → w.depth = v.depth) :
    Value.itemsDepth ws = Value.itemsDepth vs := by
  induction vs generalizing ws with
  | nil =>
    cases h
    rfl
  | cons v vs ihs =>
    cases h with
    | cons hv hvs =>
      rw [Value.itemsDepth, Value.itemsDepth, ih v List.mem_cons_self hv,
        ihs hvs fun x hx => ih x (List.mem_cons_of_mem v hx)]

theorem ReorderedMembers.depth_eq {ms ns : Members} (h : ReorderedMembers ms ns)
    (ih : ∀ m ∈ ms, ∀ {w}, Reordered m.2 w → w.depth = m.2.depth) :
    Value.membersDepth ns = Value.membersDepth ms := by
  induction ms generalizing ns with
  | nil =>
    cases h
    rfl
  | cons m ms ihs =>
    cases h with
    | cons hv hms =>
      rw [Value.membersDepth, Value.membersDepth, ih _ List.mem_cons_self hv,
        ihs hms fun x hx => ih x (List.mem_cons_of_mem _ hx)]

theorem Reordered.depth_eq {v w : Value} (h : Reordered v w) : w.depth = v.depth := by
  induction v generalizing w with
  | null =>
    cases h
    rfl
  | bool b => rw [h.bool_inv]
  | number n =>
    cases h
    rfl
  | string s => rw [h.string_inv]
  | array items ih =>
    obtain ⟨ws, rfl, hitems⟩ := h.array_inv
    rw [Value.depth, Value.depth, hitems.depth_eq ih]
  | object members ih =>
    obtain ⟨ns, ns', rfl, hms, hperm⟩ := h.object_inv
    rw [Value.depth, Value.depth, ← Value.membersDepth_perm hperm, hms.depth_eq ih]

end SyntaxToC.Json

namespace SyntaxToC.Tree

open SyntaxToC.Json

/-! ## Attributes -/

section

variable {v w : Value} (h : Reordered v w) (hv : v.Distinct)

include h

theorem falsy_iff_reordered : Falsy v ↔ Falsy w := by
  cases h with
  | refl => rfl
  | array _ => exact iff_of_false (by rintro ⟨⟩) (by rintro ⟨⟩)
  | object _ _ => exact iff_of_false (by rintro ⟨⟩) (by rintro ⟨⟩)

theorem IsLiteral.reordered {s : String} (hs : IsLiteral v s) : IsLiteral w s := by
  cases hs with
  | string => cases h; exact .string
  | integer => cases h; exact .integer
  | real hd hs => cases h; exact .real hd hs
  | true => cases h; exact .true
  | false => cases h; exact .false

include hv

theorem IsName.reordered {s : String} (hs : IsName v s) : IsName w s := by
  cases hs with
  | object hname =>
    obtain ⟨-, y, hy, hxy⟩ := h.get? hv hname
    obtain ⟨ns, ns', rfl, -, -⟩ := h.object_inv
    rw [hxy.string_inv] at hy
    exact .object hy
  | array =>
    obtain ⟨ws, rfl, hitems⟩ := h.array_inv
    cases hitems with
    | cons hx hrest =>
      cases hrest
      rw [hx.string_inv]
      exact .array

theorem IsParam.reordered {p : Param} (hp : IsParam v p) : IsParam w p := by
  cases hp with
  | object hname hx htyping hy =>
    obtain ⟨hdx, x', hname', hxx⟩ := h.get? hv hname
    obtain ⟨hdy, y', htyping', hyy⟩ := h.get? hv htyping
    obtain ⟨ns, ns', rfl, -, -⟩ := h.object_inv
    exact .object hname' (hx.reordered hxx hdx) htyping' (hy.reordered hyy hdy)
  | array hx hy =>
    obtain ⟨ws, rfl, hitems⟩ := h.array_inv
    cases hv with
    | array hd =>
      cases hitems with
      | cons hxx hrest =>
        cases hrest with
        | cons hyy hnil =>
          cases hnil
          exact .array (hx.reordered hxx (hd _ (by simp))) (hy.reordered hyy (hd _ (by simp)))

theorem IsSource.reordered {std : Bool} {s : String} (hs : IsSource v std s) :
    IsSource w std s := by
  cases hs with
  | object hstd hvalue =>
    obtain ⟨-, x, hx, hxx⟩ := h.get? hv hstd
    obtain ⟨-, y, hy, hyy⟩ := h.get? hv hvalue
    obtain ⟨ns, ns', rfl, -, -⟩ := h.object_inv
    rw [hxx.bool_inv] at hx
    rw [hyy.string_inv] at hy
    exact .object hx hy
  | array =>
    obtain ⟨ws, rfl, hitems⟩ := h.array_inv
    cases hitems with
    | cons hxx hrest =>
      cases hrest with
      | cons hyy hnil =>
        cases hnil
        rw [hxx.bool_inv, hyy.string_inv]
        exact .array

end

theorem forall₂_isParam_reordered {vs ws : List Value} {params : List Param}
    (h : List.Forall₂ IsParam vs params) (hvs : ∀ v ∈ vs, v.Distinct) (hw : ReorderedItems vs ws) :
    List.Forall₂ IsParam ws params := by
  induction h generalizing ws with
  | nil =>
    cases hw
    exact .nil
  | cons hp _ ih =>
    cases hw with
    | cons hx hxs =>
      obtain ⟨hv, hrest⟩ := List.forall_mem_cons.1 hvs
      exact .cons (hp.reordered hx hv) (ih hrest hxs)

/-! ## Nodes -/

/-- A member that is a text stays as it is. -/
theorem get?_string_reordered {v w : Value} (h : Reordered v w) (hv : v.Distinct) {key s : String}
    (hs : v.get? key = some (.string s)) : w.get? key = some (.string s) := by
  obtain ⟨-, y, hy, hsy⟩ := h.get? hv hs
  rw [hy, hsy.string_inv]

theorem get?_bool_reordered {v w : Value} (h : Reordered v w) (hv : v.Distinct) {key : String}
    {b : Bool} (hb : v.get? key = some (.bool b)) : w.get? key = some (.bool b) := by
  obtain ⟨-, y, hy, hby⟩ := h.get? hv hb
  rw [hy, hby.bool_inv]

theorem get?_array_reordered {v w : Value} (h : Reordered v w) (hv : v.Distinct) {key : String}
    {vs : List Value} (hvs : v.get? key = some (.array vs)) :
    ∃ ws, w.get? key = some (.array ws) ∧ ReorderedItems vs ws ∧ ∀ x ∈ vs, x.Distinct := by
  obtain ⟨hd, y, hy, hvsy⟩ := h.get? hv hvs
  obtain ⟨ws, rfl, hitems⟩ := hvsy.array_inv
  cases hd with
  | array hd => exact ⟨ws, hy, hitems, hd⟩

theorem decodesSlots_reordered {vs ws : List Value} {slots : Slots}
    (ih : ∀ n, some n ∈ slots → ∀ {v w}, Decodes v n → v.Distinct → Reordered v w → Decodes w n)
    (h : DecodesSlots vs slots) (hvs : ∀ v ∈ vs, v.Distinct) (hw : ReorderedItems vs ws) :
    DecodesSlots ws slots := by
  induction slots generalizing vs ws with
  | nil =>
    cases h
    cases hw
    exact .nil
  | cons slot slots ihs =>
    have ihslots : ∀ n, some n ∈ slots →
        ∀ {v w}, Decodes v n → v.Distinct → Reordered v w → Decodes w n :=
      fun n hn => ih n (List.mem_cons_of_mem slot hn)
    cases hw with
    | nil => cases h
    | cons hx hxs =>
      obtain ⟨hv, hrest⟩ := List.forall_mem_cons.1 hvs
      cases h with
      | empty hf hslots =>
        exact .empty ((falsy_iff_reordered hx).1 hf) (ihs ihslots hslots hrest hxs)
      | node hf hn hslots =>
        exact .node (fun h => hf ((falsy_iff_reordered hx).2 h)) (ih _ List.mem_cons_self hn hv hx)
          (ihs ihslots hslots hrest hxs)

theorem decodesAll_reordered {vs ws : List Value} {nodes : List Node}
    (ih : ∀ n ∈ nodes, ∀ {v w}, Decodes v n → v.Distinct → Reordered v w → Decodes w n)
    (h : DecodesAll vs nodes) (hvs : ∀ v ∈ vs, v.Distinct) (hw : ReorderedItems vs ws) :
    DecodesAll ws nodes := by
  induction nodes generalizing vs ws with
  | nil =>
    cases h
    cases hw
    exact .nil
  | cons n nodes ihs =>
    cases h with
    | cons hn hns =>
      cases hw with
      | cons hx hxs =>
        obtain ⟨hv, hrest⟩ := List.forall_mem_cons.1 hvs
        exact .cons (ih n List.mem_cons_self hn hv hx)
          (ihs (fun m hm => ih m (List.mem_cons_of_mem n hm)) hns hrest hxs)

/-- The tree that a value denotes does not depend on the order of its members. -/
theorem Decodes.reordered {v w : Value} {t : Node} (h : Decodes v t) (hv : v.Distinct)
    (hw : Reordered v w) : Decodes w t := by
  induction t generalizing v w with
  | program body ih =>
    cases h with
    | program hk hws hslots =>
      obtain ⟨ws, hws', hitems, hd⟩ := get?_array_reordered hw hv hws
      exact .program (get?_string_reordered hw hv hk) hws'
        (decodesSlots_reordered ih hslots hd hitems)
  | importDecl std value =>
    cases h with
    | importDecl hk hs hsource =>
      obtain ⟨hd, y, hy, hxy⟩ := hw.get? hv hs
      exact .importDecl (get?_string_reordered hw hv hk) hy (hsource.reordered hxy hd)
  | functionDecl name returnType params body ih =>
    cases h with
    | functionDecl hk hi hname hr hreturn hp hparams hb hbody =>
      obtain ⟨hdi, i, hi', hii⟩ := hw.get? hv hi
      obtain ⟨hdr, r, hr', hrr⟩ := hw.get? hv hr
      obtain ⟨ps, hp', hps, hdp⟩ := get?_array_reordered hw hv hp
      obtain ⟨hdb, b, hb', hbb⟩ := hw.get? hv hb
      refine .functionDecl (get?_string_reordered hw hv hk) hi' (hname.reordered hii hdi) hr'
        (hreturn.reordered hrr hdr) hp' (forall₂_isParam_reordered hparams hdp hps) hb' ?_
      cases hbody with
      | block hkb hws hslots =>
        obtain ⟨ws, hws', hitems, hd⟩ := get?_array_reordered hbb hdb hws
        exact .block (get?_string_reordered hbb hdb hkb) hws'
          (decodesSlots_reordered ih hslots hd hitems)
  | block body ih =>
    cases h with
    | block hk hws hslots =>
      obtain ⟨ws, hws', hitems, hd⟩ := get?_array_reordered hw hv hws
      exact .block (get?_string_reordered hw hv hk) hws'
        (decodesSlots_reordered ih hslots hd hitems)
  | returnStmt argument ih =>
    cases h with
    | returnStmt hk hx hn =>
      obtain ⟨hd, y, hy, hxy⟩ := hw.get? hv hx
      exact .returnStmt (get?_string_reordered hw hv hk) hy (ih hn hd hxy)
  | exprStmt expression ih =>
    cases h with
    | exprStmt hk hx hn =>
      obtain ⟨hd, y, hy, hxy⟩ := hw.get? hv hx
      exact .exprStmt (get?_string_reordered hw hv hk) hy (ih hn hd hxy)
  | variableDecl mutable name typing value ih =>
    cases h with
    | variableDecl hk hm hi hname ht htyping hx hn =>
      obtain ⟨hdi, i, hi', hii⟩ := hw.get? hv hi
      obtain ⟨hdt, y, ht', htt⟩ := hw.get? hv ht
      obtain ⟨hdx, x, hx', hxx⟩ := hw.get? hv hx
      exact .variableDecl (get?_string_reordered hw hv hk) (get?_bool_reordered hw hv hm) hi'
        (hname.reordered hii hdi) ht' (htyping.reordered htt hdt) hx' (ih hn hdx hxx)
  | call callee arguments ih =>
    cases h with
    | call hk hc hcallee hws hns =>
      obtain ⟨hdc, c, hc', hcc⟩ := hw.get? hv hc
      obtain ⟨ws, hws', hitems, hd⟩ := get?_array_reordered hw hv hws
      exact .call (get?_string_reordered hw hv hk) hc' (hcallee.reordered hcc hdc) hws'
        (decodesAll_reordered ih hns hd hitems)
  | binary left op right ihl ihr =>
    cases h with
    | binary hk hop hl hleft hr hright =>
      obtain ⟨hdl, l, hl', hll⟩ := hw.get? hv hl
      obtain ⟨hdr, r, hr', hrr⟩ := hw.get? hv hr
      exact .binary (get?_string_reordered hw hv hk) (get?_string_reordered hw hv hop) hl'
        (ihl hleft hdl hll) hr' (ihr hright hdr hrr)
  | literal text =>
    cases h with
    | literal hk hx hs =>
      obtain ⟨-, y, hy, hxy⟩ := hw.get? hv hx
      exact .literal (get?_string_reordered hw hv hk) hy (hs.reordered hxy)
  | identifier name =>
    cases h with
    | identifier hk hs =>
      exact .identifier (get?_string_reordered hw hv hk) (get?_string_reordered hw hv hs)
  | unsupported tag =>
    cases h with
    | unsupported hk hforeign => exact .unsupported (get?_string_reordered hw hv hk) hforeign

end SyntaxToC.Tree
