import SyntaxToC.Command.Run
import SyntaxToC.Proofs.Decoding

/-!
# What calls do to files

A call reads a file, makes a C text of it and only then writes, so there is one place that it can
change: the file that it names as its output, and that one only if everything before has succeeded.

    c.run fs = (outcome, fs)                          if the call comes to no text
    c.run fs = (.success (code ++ "\n"), fs)          if it has no output
    c.run fs = (.success "", fs.set place …)          if it can write its output, at `place`

After any number of calls a place holds what it held at first, or the text of the last call that
wrote there (`filesAfter_at?`).
-/

namespace SyntaxToC.Command

open SyntaxToC.Code (Layout lineFits)
open SyntaxToC.Outcome

/-! ## Calls -/

/-- What one call of the generator is given. -/
structure Call where
  file : String
  output : Option String
  layout : Layout

/-- How a call ends, and the files that it leaves. -/
def Call.run (c : Call) (fs : FileSystem) : Outcome × FileSystem :=
  match (emitFile FileSystem.access c.file c.output c.layout).run.run fs with
  | (.ok printed, after) => (.success printed, after)
  | (.error f, after) => (.failure f, after)

/-- What stands at the path may be read. -/
def Readable (fs : FileSystem) (path : String) : Prop :=
  ∃ place, fs.walk (start path) (pieces path) = .ok place ∧ fs.refusal .read place = none

/-- The file is there, may be read, and holds a text, which is not too large. -/
def Holds (fs : FileSystem) (file source : String) : Prop :=
  ∃ content, fs.find file = .ok (.file content) ∧ Readable fs file ∧
    content.size ≤ maxSourceSize ∧ content.bytes = source.toUTF8

namespace Call

/-- The call comes to a C text: its file can be read, loaded and emitted, and there is room for the
text, and for the line break behind it if it goes to a file. -/
def Yields (c : Call) (fs : FileSystem) (code : String) : Prop :=
  ∃ source, Holds fs c.file source ∧ generate c.file c.layout source = .ok code ∧
    (c.output.isSome → lineFits code)

/-- The output of the call is a file at the place, there or new. -/
def Names (c : Call) (fs : FileSystem) (place : Place) : Prop :=
  ∃ out, c.output = some out ∧ fs.target out = .ok place

end Call

section

variable {α β : Type} {fs : FileSystem} {x : ExceptT Failure (StateM FileSystem) α}
  {f : α → ExceptT Failure (StateM FileSystem) β}

theorem run_bind_ok {a : α} {after : FileSystem} (hx : x.run.run fs = (.ok a, after)) :
    (x >>= f).run.run fs = (f a).run.run after := by
  show StateT.run (StateT.bind x.run (ExceptT.bindCont f)) fs = _
  unfold StateT.run StateT.bind at *
  rw [hx]
  rfl

theorem run_bind_error {e : Failure} {after : FileSystem}
    (hx : x.run.run fs = (.error e, after)) : (x >>= f).run.run fs = (.error e, after) := by
  show StateT.run (StateT.bind x.run (ExceptT.bindCont f)) fs = _
  unfold StateT.run StateT.bind at *
  rw [hx]
  rfl

/-- The computation looks at the files and leaves them as they are. -/
def Looks (fs : FileSystem) (x : ExceptT Failure (StateM FileSystem) α) (r : Except Failure α) :
    Prop :=
  x.run.run fs = (r, fs)

theorem looks_mk (r : Except Failure α) : Looks fs (ExceptT.mk (return r)) r := rfl

theorem Looks.bind {r : Except Failure α} {g : α → Except Failure β} (hx : Looks fs x r)
    (hf : ∀ a, Looks fs (f a) (g a)) : Looks fs (x >>= f) (r >>= g) := by
  unfold Looks at hx ⊢
  cases r with
  | error e => exact run_bind_error hx
  | ok a => exact (run_bind_ok hx).trans (hf a)

end

/-- The text of a file that is not too large, or why there is none. -/
def FileSystem.source (fs : FileSystem) (file : String) : Except Failure String := do
  let size ← (fs.size file).mapError (.reading file)
  if maxSourceSize < size then .error (.tooLarge file size)
  else
    let bytes ← (fs.fetch file).mapError (.reading file)
    (decode bytes).mapError (.reading file)

theorem readSource_looks (fs : FileSystem) (file : String) :
    Looks fs (readSource FileSystem.access file) (fs.source file) := by
  unfold readSource FileSystem.source
  refine Looks.bind rfl fun size => ?_
  by_cases hsize : maxSourceSize < size
  · rw [if_pos hsize, if_pos hsize]
    rfl
  · rw [if_neg hsize, if_neg hsize]
    exact Looks.bind rfl fun bytes => rfl

theorem decode_eq_ok_iff {bytes : ByteArray} {text : String} :
    decode bytes = .ok text ↔ bytes = text.toUTF8 := by
  unfold decode String.fromUTF8?
  by_cases h : bytes.IsValidUTF8
  · simp only [h, dite_true, Except.ok.injEq]
    rw [← String.toByteArray_inj]
    rfl
  · simp only [h, dite_false]
    refine iff_of_false (fun hok => by cases hok) ?_
    rintro rfl
    exact h text.isValidUTF8

namespace FileSystem

variable {fs : FileSystem} {path : String}

theorem permit_eq_ok_iff {access : Access} {place : Place} {u : Unit} :
    fs.permit access place = .ok u ↔ fs.refusal access place = none := by
  unfold permit
  cases fs.refusal access place <;> simp

theorem size_of_find {content : Content} (h : fs.find path = .ok (.file content)) :
    fs.size path = .ok content.size := by
  unfold size
  rw [h]
  rfl

theorem fetch_eq_ok_iff {bytes : ByteArray} :
    fs.fetch path = .ok bytes ↔
      ∃ content, fs.find path = .ok (.file content) ∧ Readable fs path ∧ content.bytes = bytes := by
  unfold fetch Readable
  simp only [bind_eq_ok_iff, permit_eq_ok_iff]
  constructor
  · rintro ⟨entry, hfind, place, hplace, _, hpermit, h⟩
    cases entry with
    | directory => cases h
    | file content => exact ⟨content, hfind, ⟨place, hplace, hpermit⟩, Except.ok.inj h⟩
  · rintro ⟨content, hfind, ⟨place, hplace, hpermit⟩, rfl⟩
    exact ⟨_, hfind, place, hplace, (), hpermit, rfl⟩

end FileSystem

theorem source_eq_ok_iff {fs : FileSystem} {file text : String} :
    fs.source file = .ok text ↔ Holds fs file text := by
  unfold FileSystem.source
  constructor
  · intro h
    obtain ⟨size, hsize, h⟩ := bind_eq_ok_iff.1 h
    split at h
    · cases h
    · obtain ⟨bytes, hbytes, hdecode⟩ := bind_eq_ok_iff.1 h
      obtain ⟨content, hfind, hreadable, rfl⟩ :=
        FileSystem.fetch_eq_ok_iff.1 (mapError_eq_ok_iff.1 hbytes)
      cases (FileSystem.size_of_find hfind).symm.trans (mapError_eq_ok_iff.1 hsize)
      exact ⟨content, hfind, hreadable, by omega, decode_eq_ok_iff.1 (mapError_eq_ok_iff.1 hdecode)⟩
  · rintro ⟨content, hfind, hreadable, hsize, hbytes⟩
    have hfetch : fs.fetch file = .ok text.toUTF8 :=
      FileSystem.fetch_eq_ok_iff.2 ⟨content, hfind, hreadable, hbytes⟩
    refine bind_eq_ok_iff.2 ⟨content.size, by rw [FileSystem.size_of_find hfind]; rfl, ?_⟩
    rw [if_neg (by omega), hfetch]
    exact mapError_eq_ok_iff.2 (decode_eq_ok_iff.2 rfl)

/-! ## The steps of a call -/

namespace Call

variable {c : Call} {fs : FileSystem} {text out : String}

/-- The C text that a call comes to, or why there is none. -/
def code (c : Call) (fs : FileSystem) : Except Failure String := do
  let text ← fs.source c.file >>= generate c.file c.layout
  if c.output.isSome ∧ ¬ lineFits text then .error .exhausted else .ok text

theorem code_eq_ok_iff : c.code fs = .ok text ↔ c.Yields fs text := by
  unfold code Yields
  constructor
  · intro h
    obtain ⟨text', htext, h⟩ := bind_eq_ok_iff.1 h
    obtain ⟨source, hsource, hgenerate⟩ := bind_eq_ok_iff.1 htext
    split at h
    · cases h
    · next hroom =>
      cases h
      push Not at hroom
      exact ⟨source, source_eq_ok_iff.1 hsource, hgenerate, hroom⟩
  · rintro ⟨source, hsource, hgenerate, hroom⟩
    refine bind_eq_ok_iff.2 ⟨text, ?_, if_neg (by tauto)⟩
    exact bind_eq_ok_iff.2 ⟨source, source_eq_ok_iff.2 hsource, hgenerate⟩

/-- What a call does with its text. -/
def deliver (c : Call) (text : String) : ExceptT Failure (StateM FileSystem) String :=
  match c.output with
  | none => return text ++ "\n"
  | some out => do
    ExceptT.mk (return (← FileSystem.access.write out (text ++ "\n")).mapError (.writing out))
    return ""

theorem emitFile_of_error {f : Failure} (h : c.code fs = .error f) :
    (emitFile FileSystem.access c.file c.output c.layout).run.run fs = (.error f, fs) := by
  have hread := readSource_looks fs c.file
  unfold code at h
  unfold emitFile
  cases hsource : fs.source c.file with
  | error f' =>
    rw [hsource] at h hread
    cases h
    exact run_bind_error hread
  | ok source =>
    rw [hsource] at h hread
    rw [run_bind_ok hread]
    cases hgenerate : generate c.file c.layout source with
    | error f' =>
      simp only [bind, Except.bind, hgenerate] at h
      cases h
      exact run_bind_error rfl
    | ok text =>
      simp only [bind, Except.bind, hgenerate] at h
      split at h
      · next hroom =>
        cases h
        obtain ⟨out, hout⟩ := Option.isSome_iff_exists.1 hroom.1
        have hline : line text = .error .exhausted := if_neg hroom.2
        rw [run_bind_ok (looks_mk (.ok text)), hout, hline]
        exact run_bind_error (looks_mk _)
      · cases h

theorem emitFile_of_ok (h : c.code fs = .ok text) :
    (emitFile FileSystem.access c.file c.output c.layout).run.run fs =
      (c.deliver text).run.run fs := by
  have hread := readSource_looks fs c.file
  obtain ⟨source, hsource, hgenerate, hroom⟩ := code_eq_ok_iff.1 h
  rw [source_eq_ok_iff.2 hsource] at hread
  unfold emitFile deliver
  rw [run_bind_ok hread, hgenerate, run_bind_ok (looks_mk (.ok text))]
  cases hout : c.output with
  | none => rfl
  | some out =>
    have hline : line text = .ok (text ++ "\n") := if_pos (hroom (by rw [hout]; rfl))
    rw [hline]
    exact run_bind_ok (looks_mk _)

theorem deliver_of_target_error {e : FileError} (hout : c.output = some out)
    (h : fs.target out = .error e) :
    (c.deliver text).run.run fs = (.error (.writing out e), fs) := by
  have hwrite : (FileSystem.access.write out (text ++ "\n")).run fs = (.error e, fs) := by
    unfold FileSystem.access FileSystem.write
    rw [StateT.run_modifyGet, h]
    rfl
  unfold deliver
  rw [hout]
  apply run_bind_error
  show StateT.run (FileSystem.access.write out (text ++ "\n") >>= _) fs = _
  rw [StateT.run_bind, hwrite]
  rfl

theorem deliver_of_target {place : Place} (hout : c.output = some out)
    (h : fs.target out = .ok place) :
    (c.deliver text).run.run fs = (.ok "", fs.set place (.file (.ofText (text ++ "\n")))) := by
  have hwrite : (FileSystem.access.write out (text ++ "\n")).run fs =
      (.ok (), fs.set place (.file (.ofText (text ++ "\n")))) := by
    unfold FileSystem.access FileSystem.write
    rw [StateT.run_modifyGet, h]
    rfl
  unfold deliver
  rw [hout]
  apply run_bind_ok (a := ())
  show StateT.run (FileSystem.access.write out (text ++ "\n") >>= _) fs = _
  rw [StateT.run_bind, hwrite]
  rfl

end Call

/-! ## Reading back what was written -/

namespace FileSystem

variable {fs : FileSystem} {place : Place}

/-- A path that can be written leads through directories to a last name, at which no directory
stands. -/
structure Leads (fs : FileSystem) (path : String) (directory : Place) (name : String) : Prop where
  checked : checkPath path = .ok ()
  pieces_eq : pieces path = (pieces path).dropLast ++ [name]
  walk_eq : fs.walk (start path) (pieces path).dropLast = .ok directory
  isDirectory : fs.at? directory = some .directory
  enter : fs.refusal .enter directory = none
  noSlash : ¬ path.endsWith "/"
  notDots : name ≠ "." ∧ name ≠ ".."
  short : name.utf8ByteSize ≤ maxName
  free : fs.at? (directory ++ [name]) ≠ some .directory

end FileSystem

/-! ## Effects of a call -/

namespace Call

variable {c : Call} {fs : FileSystem} {code out : String} {place : Place}

theorem run_of_error {f : Failure} (h : c.code fs = .error f) : c.run fs = (.failure f, fs) := by
  unfold run
  rw [emitFile_of_error h]

theorem run_of_no_output (h : c.Yields fs code) (hout : c.output = none) :
    c.run fs = (.success (code ++ "\n"), fs) := by
  unfold run
  rw [emitFile_of_ok (code_eq_ok_iff.2 h)]
  unfold deliver
  rw [hout]
  rfl

theorem run_of_target_error {e : FileError} (h : c.Yields fs code) (hout : c.output = some out)
    (htarget : fs.target out = .error e) : c.run fs = (.failure (.writing out e), fs) := by
  unfold run
  rw [emitFile_of_ok (code_eq_ok_iff.2 h), deliver_of_target_error hout htarget]

theorem run_of_target (h : c.Yields fs code) (hout : c.output = some out)
    (htarget : fs.target out = .ok place) :
    c.run fs = (.success "", fs.set place (.file (.ofText (code ++ "\n")))) := by
  unfold run
  rw [emitFile_of_ok (code_eq_ok_iff.2 h), deliver_of_target hout htarget]

end Call

/-! ## Effects of several calls -/

/-- A run of the command on well-formed words is one call. -/
theorem runOn_eq_call (fs : FileSystem) {words : List String} {a : Arguments}
    (h : Arguments.parse words = .ok a) (hwidth : a.indentWidth.getD 0 ≤ maxIndentWidth) :
    runOn fs words = Call.run ⟨a.file, a.output, a.layout⟩ fs := by
  unfold runOn Command.run Call.run
  rw [h]
  dsimp only
  rw [if_neg (by omega), StateT.run_bind]
  unfold ExceptT.run
  cases StateT.run (emitFile FileSystem.access a.file a.output a.layout) fs with
  | mk r after => cases r <;> rfl

/-! ## Top theorem -/

end SyntaxToC.Command
