/-
  The files that a build leaves.

  On its way to the output, a build may write an assembly file and an object file, `tmp.s` and
  `tmp.o`, and it is to remove them again.  What the assembler and the linker do is not known, but
  they are taken to be `Tidy`.

  * `Kept files out F`: `F` are the files `files` with another output and other temporary files;
    every operation of a build keeps this;
  * `Build.start_cases`: a program cannot be run, or it ends with a code and leaves some files;
  * `Build.temporaries_left_iff`: the temporary files are left behind exactly where a program could
    not be run, or ended with a failure after making its file, or where the assembly is to be kept.
-/
import ExprLang.Proofs.Computations
import ExprLang.Proofs.FilePlaces

namespace ExprLang

open ExceptT

/-! ## Programs -/

/-- The programs change nothing but the files that they are told to make, and neither make nor
    remove directories. -/
structure Tools.Tidy (tools : Tools) : Prop where
  others : ∀ {name args files code F}, tools name args files = .ok (code, F) → ∀ p,
    (∀ path, outputOf? args = some path → p ≠ .ofPath path) → F.find p = files.find p
  directories : ∀ {name args files code F}, tools name args files = .ok (code, F) → ∀ p,
    F.find p = .directory ↔ files.find p = .directory

theorem Files.Wrote.directories {files F : Files} {q : Place} {text : String}
    (h : files.Wrote q text F) (p : Place) : F.find p = .directory ↔ files.find p = .directory := by
  by_cases hp : p = q
  · subst hp
    simp [h.self, h.was]
  · rw [h.others p hp]

theorem Tools.ofCodes_tidy (codes : List (String × Int)) : (Tools.ofCodes codes).Tidy := by
  have hcases : ∀ {name args files code F}, ofCodes codes name args files = .ok (code, F) →
      F = files ∨ ∃ path text, outputOf? args = some path ∧ files.Wrote (.ofPath path) text F := by
    intro name args files code F h
    rw [ofCodes] at h
    split at h
    · cases h
    split at h
    · rename_i path hpath
      split at h
      · cases hw : files.write path ("made by " ++ name) with
        | error f =>
          rw [hw] at h
          cases h
        | ok F' =>
          rw [hw] at h
          cases h
          exact .inr ⟨path, _, hpath, Files.write_spec hw⟩
      · cases h
        exact .inl rfl
    · cases h
      exact .inl rfl
  constructor
  · intro name args files code F h p hp
    rcases hcases h with rfl | ⟨path, text, hpath, hw⟩
    · rfl
    · exact hw.others p (hp path hpath)
  · intro name args files code F h p
    rcases hcases h with rfl | ⟨path, text, -, hw⟩
    · rfl
    · exact hw.directories p

/-! ## Temporary files -/

/-- The files that a build writes for itself. -/
def temporaries : List String := ["tmp.s", "tmp.o"]

/-- The directory that a program runs in. -/
def Place.here : Place := ⟨some 0, []⟩

theorem ofPath_temporary : ∀ t ∈ temporaries, Place.ofPath t = ⟨some 0, [t.toList]⟩ ∧
    t.isEmpty = false ∧ Place.start t = .here ∧ Text.splitAt '/' t.toList = [t.toList] := by
  decide +kernel

section
variable {files : Files} {t : String}

theorem Files.entry_eq_walk (files : Files) (ht : t ∈ temporaries) :
    files.entry t = files.walk .here [t.toList] ∧ Place.here.step t.toList = .ofPath t := by
  obtain ⟨-, hempty, hstart, hsplit⟩ := ofPath_temporary t ht
  rw [entry, hempty, hstart, hsplit, Place.ofPath, hsplit, hstart]
  exact ⟨rfl, rfl⟩

theorem Files.entry_temporary (ht : t ∈ temporaries) (hhere : files.find .here = .directory) :
    files.entry t = files.find (.ofPath t) := by
  obtain ⟨hwalk, hstep⟩ := files.entry_eq_walk ht
  rw [hwalk, walk, hhere, ← hstep]
  rfl

theorem Files.find_of_entry_missing (ht : t ∈ temporaries) (h : files.entry t = .missing) :
    files.find .here = .directory ∧ files.find (.ofPath t) = .missing := by
  have hhere : files.find .here = .directory := by
    rw [(files.entry_eq_walk ht).1, walk] at h
    cases hfind : files.find .here with
    | directory => rfl
    | file _ | blocked =>
      rw [hfind] at h
      cases h
    | missing => exact absurd (.inl rfl) (find_eq_missing_iff.1 hfind)
  exact ⟨hhere, by rwa [← entry_temporary ht hhere]⟩

end

/-- `F` are the files `files` with another output and other temporary files. -/
structure Kept (files : Files) (out : String) (F : Files) : Prop where
  others : ∀ p, p ≠ .ofPath out → (∀ t ∈ temporaries, p ≠ .ofPath t) → F.find p = files.find p
  directories : ∀ p, F.find p = .directory ↔ files.find p = .directory

namespace Kept

variable {files F F' : Files} {out t : String}

theorem refl (files : Files) (out : String) : Kept files out files :=
  ⟨fun _ _ _ => rfl, fun _ => Iff.rfl⟩

theorem write {path text : String} (h : Kept files out F)
    (hpath : path = out ∨ path ∈ temporaries) (hw : F.Wrote (.ofPath path) text F') :
    Kept files out F' := by
  refine ⟨fun p hp ht => ?_, fun p => (hw.directories p).trans (h.directories p)⟩
  rw [hw.others p, h.others p hp ht]
  rcases hpath with rfl | hpath
  · exact hp
  · exact ht path hpath

theorem start {tools : Tools} {name path : String} {args : List String} {code : Int}
    (h : Kept files out F) (htools : tools.Tidy) (hargs : outputOf? args = some path)
    (hpath : path = out ∨ path ∈ temporaries) (hrun : tools name args F = .ok (code, F')) :
    Kept files out F' := by
  refine ⟨fun p hp ht => ?_, fun p => (htools.directories hrun p).trans (h.directories p)⟩
  rw [htools.others hrun p, h.others p hp ht]
  intro path' hpath'
  cases hargs.symm.trans hpath'
  rcases hpath with rfl | hpath
  · exact hp
  · exact ht path hpath

theorem erase (h : Kept files out F) (ht : t ∈ temporaries)
    (hmissing : files.find (.ofPath t) = .missing) : Kept files out (F.erase t) := by
  have hsteps : (Place.ofPath t).steps = [t.toList] := by rw [(ofPath_temporary t ht).1]
  refine ⟨fun p hp hpt => ?_, fun p => ?_⟩
  · rw [F.erase_spec hsteps]
    split
    · rename_i hunder
      exact (Files.find_below hmissing hunder).symm
    · exact h.others p hp hpt
  · rw [F.erase_spec hsteps]
    split
    · rename_i hunder
      simp [Files.find_below hmissing hunder]
    · exact h.directories p

end Kept

/-! ## Builds -/

def Desk.Started (d : Desk) (name : String) : Prop := ∃ s ∈ d.started, s.name = name

/-- The program was started and could not be run. -/
def Desk.Stopped (d : Desk) (name : String) : Prop :=
  ∃ s ∈ d.started, s.name = name ∧ ∃ f, s.outcome = .error f

/-- The program was started, ended with the code and left the files. -/
def Desk.Ended (d : Desk) (name : String) (code : Int) (F : Files) : Prop :=
  ∃ s ∈ d.started, s.name = name ∧ s.outcome = .ok (code, F)

namespace Build

variable {α β : Type}

variable {d d' : Desk}

theorem exec_ofExcept_bind {ε : Type} {fault : ε → BuildFault} {x : Except ε α} {k : α → Build β}
    {result : Except BuildFault β} (h : exec (ofExcept fault x >>= k) d = (result, d')) :
    d' = d ∨ ∃ a, exec (k a) d = (result, d') := by
  cases x with
  | error e =>
    cases h
    exact .inl rfl
  | ok a => exact .inr ⟨a, h⟩

theorem exec_writeFile {path text : String} {result : Except BuildFault Unit}
    (h : exec (writeFile path text) d = (result, d')) :
    (∃ f, result = .error f) ∧ d' = d ∨ ∃ F, d.files.Wrote (.ofPath path) text F ∧
      result = .ok () ∧ d' = { d with files := F } := by
  rw [writeFile, exec_get_bind] at h
  cases hw : d.files.write path text with
  | error f =>
    rw [hw] at h
    cases h
    exact .inl ⟨⟨_, rfl⟩, rfl⟩
  | ok F =>
    rw [hw] at h
    cases h
    exact .inr ⟨F, Files.write_spec hw, rfl, rfl⟩

theorem exec_removeFile {t : String} {result : Except BuildFault Unit} (ht : t ∈ temporaries)
    (hhere : d.files.find .here = .directory) (h : exec (removeFile t) d = (result, d')) :
    (∃ text, d.files.find (.ofPath t) = .file text) ∧ result = .ok () ∧
        d' = { d with files := d.files.erase t } ∨
      (∀ text, d.files.find (.ofPath t) ≠ .file text) ∧ d' = d := by
  rw [removeFile, exec_get_bind, Files.entry_temporary ht hhere] at h
  cases hfind : d.files.find (.ofPath t) with
  | file text =>
    rw [hfind] at h
    cases h
    exact .inl ⟨⟨text, rfl⟩, rfl, rfl⟩
  | directory | missing | blocked =>
    rw [hfind] at h
    cases h
    exact .inr ⟨nofun, rfl⟩

/-- A program cannot be run, or it ends with a code and leaves some files. -/
theorem start_cases {name : String} {args : List String} {result : Except BuildFault Int}
    (h : exec (start name args) d = (result, d')) : (∃ f, result = .error f ∧
        d' = { d with started := d.started ++ [⟨name, args, .error f⟩] }) ∨
      ∃ code F, d.tools name args d.files = .ok (code, F) ∧ result = .ok code ∧
        d' = { d with files := F, started := d.started ++ [⟨name, args, .ok (code, F)⟩] } := by
  rw [start, exec_get_bind, exec_modify_bind] at h
  cases hrun : d.tools name args d.files with
  | error f =>
    rw [hrun] at h
    cases h
    exact .inl ⟨f, rfl, rfl⟩
  | ok end_ =>
    rw [hrun] at h
    cases h
    exact .inr ⟨end_.1, end_.2, rfl, rfl, rfl⟩

/-- What a build leaves; `made` says that it writes the assembly itself. -/
structure Leaves (r : CompileRequest) (files : Files) (made : Prop)
    (result : Except BuildFault Unit) (d : Desk) : Prop where
  kept : Kept files r.outfile d.files
  asm : d.files.find (.ofPath "tmp.s") ≠ .missing ↔
    made ∧ d.Started "nasm" ∧ (r.keepAsm = true ∨ d.Stopped "nasm")
  object : d.files.find (.ofPath "tmp.o") ≠ .missing ↔ ∃ code F, d.Ended "nasm" code F ∧
    F.find (.ofPath "tmp.o") ≠ .missing ∧ (code ≠ 0 ∨ d.Stopped "gcc")
  stopped : ∀ s ∈ d.started, ∀ f, s.outcome = .error f → result = .error f

section
variable {r : CompileRequest} {files : Files} {tools : Tools} {made : Prop}
  {result : Except BuildFault Unit} {d d' : Desk}

variable {F : Files} {last : Stage}

/-- Where a build can be carried out: the temporary files are not there, and the output is none of
    them. -/
structure Clear (files : Files) (out : String) : Prop where
  here : files.find .here = .directory
  missing : ∀ t ∈ temporaries, files.find (.ofPath t) = .missing
  output : ∀ t ∈ temporaries, Place.ofPath out ≠ .ofPath t

theorem Clear.find_missing {t : String} (hclear : Clear files r.outfile)
    (hkept : Kept files r.outfile F) (ht : t ∈ temporaries)
    (hfile : ∀ text, F.find (.ofPath t) ≠ .file text) : F.find (.ofPath t) = .missing := by
  cases hfind : F.find (.ofPath t) with
  | file text => exact absurd hfind (hfile text)
  | missing => rfl
  | directory =>
    rw [hkept.directories, hclear.missing t ht] at hfind
    cases hfind
  | blocked => exact absurd hfind Files.find_ne_blocked

theorem leaves_of_started_nil (hkept : Kept files r.outfile d.files)
    (hmissing : ∀ t ∈ temporaries, d.files.find (.ofPath t) = .missing) (hd : d.started = []) :
    Leaves r files made result d := by
  have hasm := hmissing "tmp.s" (by decide)
  have hobject := hmissing "tmp.o" (by decide)
  refine ⟨hkept, ?_, ?_, by simp [hd]⟩
  · simp [hasm, Desk.Started, hd]
  · simp [hobject, Desk.Ended, hd]

theorem link_leaves {args : List String} (htools : d.tools.Tidy) (hclear : Clear files r.outfile)
    (hkept : Kept files r.outfile d.files)
    (hasm : d.files.find (.ofPath "tmp.s") ≠ .missing ↔ made ∧ r.keepAsm = true)
    (hobject : d.files.find (.ofPath "tmp.o") = F.find (.ofPath "tmp.o"))
    (hstarted : d.started = [⟨"nasm", args, .ok (0, F)⟩])
    (h : exec (do let _ ← link "tmp.o" r.outfile; removeFile "tmp.o") d = (result, d')) :
    Leaves r files made result d' := by
  rcases exec_bind_cases h with ⟨f, hf, rfl⟩ | ⟨code, d₁, hlink, h⟩
  · rcases start_cases hf with ⟨f, hres, rfl⟩ | ⟨_, _, -, hres, -⟩
    · cases hres
      refine ⟨hkept, ?_, ?_, ?_⟩
      · simp [hasm, Desk.Started, Desk.Stopped, hstarted]
      · simp [hobject, Desk.Ended, Desk.Stopped, hstarted]
      · simp [hstarted]
    · cases hres
  · rcases start_cases hlink with ⟨_, hres, -⟩ | ⟨code, F', hrun, -, rfl⟩
    · cases hres
    have hkept' := hkept.start htools rfl (.inl rfl) hrun
    have hsame : ∀ t ∈ temporaries, F'.find (.ofPath t) = d.files.find (.ofPath t) :=
      fun t ht => htools.others hrun _ fun path hpath => by
        cases hpath
        exact (hclear.output t ht).symm
    rw [← hsame "tmp.s" (by decide)] at hasm
    have hhere : F'.find .here = .directory := (hkept'.directories _).2 hclear.here
    rcases exec_removeFile (by decide) hhere h with ⟨-, rfl, rfl⟩ | ⟨hfile, rfl⟩
    · have hsteps : (Place.ofPath "tmp.o").steps = ["tmp.o".toList] := by decide +kernel
      have hself : (Place.ofPath "tmp.s").isUnder (.ofPath "tmp.o") = false := by decide +kernel
      refine ⟨hkept'.erase (by decide) (hclear.missing _ (by decide)), ?_, ?_, ?_⟩
      · simp [F'.erase_spec hsteps, hself, hasm, Desk.Started, Desk.Stopped, hstarted]
      · simp [F'.erase_spec hsteps, Place.isUnder_refl, Desk.Ended, Desk.Stopped, hstarted]
      · simp [hstarted]
    · have hmissing := hclear.find_missing hkept' (by decide) hfile
      refine ⟨hkept', ?_, ?_, ?_⟩
      · simp [hasm, Desk.Started, Desk.Stopped, hstarted]
      · simp [hmissing, Desk.Ended, Desk.Stopped, hstarted]
      · simp [hstarted]

/-- What is left when the assembler has ended with a code and left the files `F`, and `tmp.s` was
    removed unless it is kept. -/
theorem assembled_leaves {code : Int} {args : List String} (htools : d.tools.Tidy)
    (hclear : Clear files r.outfile) (hkept : Kept files r.outfile d.files)
    (hasm : d.files.find (.ofPath "tmp.s") ≠ .missing ↔ made ∧ r.keepAsm = true)
    (hobject : d.files.find (.ofPath "tmp.o") = F.find (.ofPath "tmp.o"))
    (hlast : last = .obj → F.find (.ofPath "tmp.o") = .missing)
    (hstarted : d.started = [⟨"nasm", args, .ok (code, F)⟩])
    (h : exec (if code = 0 ∧ last ≠ .obj then do
        let _ ← link (if last = .obj then r.outfile else "tmp.o") r.outfile
        removeFile (if last = .obj then r.outfile else "tmp.o")
      else pure ()) d = (result, d')) :
    Leaves r files made result d' := by
  by_cases hc : code = 0 ∧ last ≠ .obj
  · obtain ⟨rfl, hne⟩ := hc
    rw [if_pos ⟨rfl, hne⟩, if_neg hne] at h
    exact link_leaves htools hclear hkept hasm hobject hstarted h
  · rw [if_neg hc] at h
    cases h
    refine ⟨hkept, ?_, ?_, ?_⟩
    · simp [hasm, Desk.Started, Desk.Stopped, hstarted]
    · simp only [hobject, Desk.Ended, Desk.Stopped, hstarted, List.mem_singleton]
      by_cases hcode : code = 0
      · have hmissing := hlast (by simpa [hcode] using hc)
        simp [hcode, hmissing]
      · simp [hcode]
    · simp [hstarted]

/-- What assembling and linking leave, where `made` assembly stands in a temporary file. -/
theorem finish_leaves {asm : String} (made : Bool) (htools : d.tools.Tidy)
    (hclear : Clear files r.outfile) (hkept : Kept files r.outfile d.files)
    (hasm : made = true → asm = "tmp.s" ∧ ∃ text, d.files.find (.ofPath "tmp.s") = .file text)
    (hmade : made = false → d.files.find (.ofPath "tmp.s") = .missing)
    (hobject : d.files.find (.ofPath "tmp.o") = .missing) (hstarted : d.started = [])
    (h : exec (finish r last asm made) d = (result, d')) :
    Leaves r files (made = true) result d' := by
  have hleft : d.files.find (.ofPath "tmp.s") ≠ .missing ↔ made = true := by
    cases made with
    | true =>
      obtain ⟨-, text, htext⟩ := hasm rfl
      simp [htext]
    | false => simp [hmade]
  unfold finish at h
  dsimp only at h
  rcases exec_bind_cases h with ⟨f, hf, rfl⟩ | ⟨code, d₁, hnasm, hrest⟩
  · rcases start_cases hf with ⟨f, hres, rfl⟩ | ⟨_, _, -, hres, -⟩
    · cases hres
      refine ⟨hkept, ?_, ?_, ?_⟩
      · simp only [hleft]
        simp [Desk.Started, Desk.Stopped, hstarted]
      · simp [hobject, Desk.Ended, hstarted]
      · simp [hstarted]
    · cases hres
  rcases start_cases hnasm with ⟨_, hres, -⟩ | ⟨code, F, hrun, hres, rfl⟩
  · cases hres
  cases hres
  rw [hstarted, List.nil_append] at hrest
  have hpath : (if last = .obj then r.outfile else "tmp.o") = r.outfile ∨
      (if last = .obj then r.outfile else "tmp.o") ∈ temporaries := by
    split
    · exact .inl rfl
    · exact .inr (by decide)
  have hkept' : Kept files r.outfile F := hkept.start htools rfl hpath hrun
  have hother : ∀ t ∈ temporaries, (last = .obj ∨ t = "tmp.s") →
      F.find (.ofPath t) = d.files.find (.ofPath t) := by
    refine fun t ht hlast => htools.others hrun _ fun path hpath => ?_
    cases hpath
    split
    · exact (hclear.output t ht).symm
    · rename_i hne
      cases hlast.resolve_left hne
      decide +kernel
  have hasm' := hother "tmp.s" (by decide) (.inr rfl)
  have hlast : last = .obj → F.find (.ofPath "tmp.o") = .missing :=
    fun hlast => (hother "tmp.o" (by decide) (.inl hlast)).trans hobject
  split at hrest
  · rename_i hremove
    simp only [Bool.and_eq_true, Bool.not_eq_true'] at hremove
    obtain ⟨rfl, hkeep⟩ := hremove
    obtain ⟨rfl, text, htext⟩ := hasm rfl
    have hhere : F.find .here = .directory := (hkept'.directories _).2 hclear.here
    have hfile : F.find (.ofPath "tmp.s") = .file text := hasm'.trans htext
    rcases exec_bind_cases hrest with ⟨f, hf, -⟩ | ⟨_, d₂, hremoved, hrest⟩
    · rcases exec_removeFile (by decide) hhere hf with ⟨-, hres, -⟩ | ⟨hne, -⟩
      · cases hres
      · exact absurd hfile (hne text)
    rcases exec_removeFile (by decide) hhere hremoved with ⟨-, -, rfl⟩ | ⟨hne, -⟩
    · have hsteps : (Place.ofPath "tmp.s").steps = ["tmp.s".toList] := by decide +kernel
      have hunder : (Place.ofPath "tmp.o").isUnder (.ofPath "tmp.s") = false := by decide +kernel
      have herased := hkept'.erase (t := "tmp.s") (by decide) (hclear.missing _ (by decide))
      refine assembled_leaves (d := { d with files := F.erase "tmp.s", started := _ }) htools hclear
        herased ?_ ?_ hlast rfl hrest
      · simp [F.erase_spec hsteps, Place.isUnder_refl, hkeep]
      · simp [F.erase_spec hsteps, hunder]
    · exact absurd hfile (hne text)
  · rename_i hremove
    refine assembled_leaves (d := { d with files := F, started := _ }) htools hclear hkept' ?_ rfl
      hlast rfl hrest
    dsimp only
    rw [hasm', hleft]
    simpa using hremove

theorem compileFile_desk {vm : Vm} {file : String} {result : Except BuildFault Compiled}
    (h : exec (compileFile vm file) d = (result, d')) : d' = d := by
  rw [compileFile, exec_get_bind] at h
  rcases exec_ofExcept_bind h with h | ⟨text, h⟩
  · exact h
  rcases exec_ofExcept_bind h with h | ⟨e, h⟩
  · exact h
  cases hg : ((compile vm e).run.run GenState.initial).1 <;> rw [hg] at h <;> cases h <;> rfl

/-- The output is written, or nothing happens. -/
theorem writeResult_leaves {text : String} (hclear : Clear files r.outfile)
    (hkept : Kept files r.outfile d.files)
    (hmissing : ∀ t ∈ temporaries, d.files.find (.ofPath t) = .missing) (hstarted : d.started = [])
    (h : exec (writeResult r.outfile text) d = (result, d')) : Leaves r files made result d' := by
  rw [writeResult] at h
  split at h
  · cases h
    exact leaves_of_started_nil hkept hmissing hstarted
  · rcases exec_writeFile h with ⟨-, rfl⟩ | ⟨F, hF, -, rfl⟩
    · exact leaves_of_started_nil hkept hmissing hstarted
    · refine leaves_of_started_nil (hkept.write (.inl rfl) hF) (fun t ht => ?_) hstarted
      dsimp only
      rw [hF.others _ (hclear.output t ht).symm, hmissing t ht]

theorem fromSource_leaves (htools : d.tools.Tidy) (hclear : Clear files r.outfile)
    (hkept : Kept files r.outfile d.files)
    (hmissing : ∀ t ∈ temporaries, d.files.find (.ofPath t) = .missing) (hstarted : d.started = [])
    (h : exec (fromSource r last) d = (result, d')) : Leaves r files True result d' := by
  unfold fromSource at h
  rcases exec_bind_cases h with ⟨f, hf, -⟩ | ⟨c, d₁, hc, h⟩
  · cases compileFile_desk hf
    exact leaves_of_started_nil hkept hmissing hstarted
  cases compileFile_desk hc
  split at h
  · rcases exec_ofExcept_bind h with rfl | ⟨text, h⟩
    · exact leaves_of_started_nil hkept hmissing hstarted
    · exact writeResult_leaves hclear hkept hmissing hstarted h
  rcases exec_ofExcept_bind h with rfl | ⟨text, h⟩
  · exact leaves_of_started_nil hkept hmissing hstarted
  split at h
  · exact writeResult_leaves hclear hkept hmissing hstarted h
  rcases exec_bind_cases h with ⟨f, hf, -⟩ | ⟨_, d₁, hw, hfinish⟩
  · rcases exec_writeFile hf with ⟨-, rfl⟩ | ⟨_, -, hres, -⟩
    · exact leaves_of_started_nil hkept hmissing hstarted
    · cases hres
  · rcases exec_writeFile hw with ⟨⟨_, hres⟩, -⟩ | ⟨F, hF, -, rfl⟩
    · cases hres
    have hobject : F.find (.ofPath "tmp.o") = .missing := by
      rw [hF.others _ (by decide +kernel), hmissing _ (by decide)]
    have hleaves := finish_leaves (d := { d with files := F }) true htools hclear
      (hkept.write (.inr (by decide)) hF) (fun _ => ⟨rfl, _, hF.self⟩) nofun hobject hstarted hfinish
    simpa using hleaves

theorem origin_cases {file : String} {result : Except BuildFault Origin}
    (h : exec (origin file) d = (result, d')) :
    d' = d ∧ (result = .ok .source ↔ suffix file = "incc24") := by
  rw [origin] at h
  split at h <;> cases h <;> simp_all

theorem target_desk {outfile : String} {result : Except BuildFault (Option Stage)}
    (h : exec (target outfile) d = (result, d')) : d' = d := by
  rw [target] at h
  split at h <;> try (cases h; rfl)
  split at h <;> (cases h; rfl)

theorem carryOut_leaves (htools : d.tools.Tidy) (hclear : Clear files r.outfile)
    (hfiles : d.files = files) (hstarted : d.started = [])
    (h : exec (carryOut r) d = (result, d')) :
    Leaves r files (suffix r.file = "incc24") result d' := by
  have hkept : Kept files r.outfile d.files := hfiles ▸ .refl files r.outfile
  have hmissing : ∀ t ∈ temporaries, d.files.find (.ofPath t) = .missing :=
    fun t ht => hfiles ▸ hclear.missing t ht
  unfold carryOut at h
  rcases exec_bind_cases h with ⟨f, hf, -⟩ | ⟨from_, d₁, horigin, hrest⟩
  · obtain ⟨rfl, -⟩ := origin_cases hf
    exact leaves_of_started_nil hkept hmissing hstarted
  obtain ⟨rfl, hsource⟩ := origin_cases horigin
  rcases exec_bind_cases hrest with ⟨f, hf, -⟩ | ⟨named, d₂, htarget, hbuild⟩
  · cases target_desk hf
    exact leaves_of_started_nil hkept hmissing hstarted
  cases target_desk htarget
  split at hbuild
  · simpa only [← hsource] using fromSource_leaves htools hclear hkept hmissing hstarted hbuild
  · cases hbuild
    exact leaves_of_started_nil hkept hmissing hstarted
  · cases hbuild
    exact leaves_of_started_nil hkept hmissing hstarted
  · cases hbuild
    exact leaves_of_started_nil hkept hmissing hstarted
  · have hleaves := finish_leaves false htools hclear hkept nofun (fun _ => hmissing _ (by decide))
      (hmissing _ (by decide)) hstarted hbuild
    simpa [← hsource] using hleaves

end

/-- However a build ends, it changes nothing but its output and its temporary files.  The assembly
    it makes is left where it is to be kept or the assembler cannot be run; the object file is left
    where the assembler makes it and ends with a failure, or the linker cannot be run.  A program
    that cannot be run stops the build. -/
theorem temporaries_left_iff (r : CompileRequest) (files : Files) {tools : Tools}
    {result : Except BuildFault Unit} {d : Desk} (htools : tools.Tidy)
    (hout : ∀ t ∈ temporaries, Place.ofPath r.outfile ≠ .ofPath t)
    (hmissing : ∀ t ∈ temporaries, files.entry t = .missing)
    (h : exec (carryOut r) ⟨files, tools, [], ""⟩ = (result, d)) :
    (∀ p, p ≠ .ofPath r.outfile → (∀ t ∈ temporaries, p ≠ .ofPath t) →
      d.files.find p = files.find p) ∧
    (d.files.find (.ofPath "tmp.s") ≠ .missing ↔ suffix r.file = "incc24" ∧ d.Started "nasm" ∧
      (r.keepAsm = true ∨ d.Stopped "nasm")) ∧
    (d.files.find (.ofPath "tmp.o") ≠ .missing ↔ ∃ code F, d.Ended "nasm" code F ∧
      F.find (.ofPath "tmp.o") ≠ .missing ∧ (code ≠ 0 ∨ d.Stopped "gcc")) ∧
    ∀ s ∈ d.started, ∀ f, s.outcome = .error f → result = .error f := by
  have hclear : Clear files r.outfile :=
    ⟨(Files.find_of_entry_missing (by decide) (hmissing "tmp.s" (by decide))).1,
      fun t ht => (Files.find_of_entry_missing ht (hmissing t ht)).2, hout⟩
  obtain ⟨hkept, hasm, hobject, hstopped⟩ := carryOut_leaves htools hclear rfl rfl h
  exact ⟨hkept.others, hasm, hobject, hstopped⟩

/-- A request to make a program of a source file. -/
abbrev plainRequest : CompileRequest := ⟨"a.incc24", "a.exe", .mama, none, false⟩

/-- What comes of it, with programs that end with the given codes. -/
abbrev plainBuild (codes : List (String × Int)) : Except BuildFault Unit × Desk :=
  exec (carryOut plainRequest) ⟨[("a.incc24", "1")], .ofCodes codes, [], ""⟩

theorem stopped_of_any {name : String}
    (h : (d.started.any fun s => s.name == name && s.outcome.toOption.isNone) = true) :
    d.Stopped name := by
  simp only [List.any_eq_true, Bool.and_eq_true, beq_iff_eq] at h
  obtain ⟨s, hs, hname, hnone⟩ := h
  refine ⟨s, hs, hname, ?_⟩
  cases hout : s.outcome with
  | error f => exact ⟨f, rfl⟩
  | ok x => simp [hout, Except.toOption] at hnone

/-- Without an assembler the assembly is left, though it is not to be kept; without a linker the
    object file is. -/
theorem temporaries_left_iff_no_program :
    (plainBuild []).2.files.find (.ofPath "tmp.s") ≠ .missing ∧
      (plainBuild [("nasm", 0)]).2.files.find (.ofPath "tmp.o") ≠ .missing := by
  have hout : ∀ t ∈ temporaries, Place.ofPath plainRequest.outfile ≠ .ofPath t := by
    decide +kernel
  have hmissing : ∀ t ∈ temporaries, Files.entry [("a.incc24", "1")] t = .missing := by
    decide +kernel
  obtain ⟨-, hasm, -, -⟩ :=
    temporaries_left_iff plainRequest _ (Tools.ofCodes_tidy []) hout hmissing rfl
  obtain ⟨-, -, hobject, -⟩ :=
    temporaries_left_iff plainRequest _ (Tools.ofCodes_tidy [("nasm", 0)]) hout hmissing rfl
  refine ⟨hasm.2 ⟨by decide +kernel, ?_⟩, hobject.2 ?_⟩
  · have hstopped : (plainBuild []).2.Stopped "nasm" := stopped_of_any (by decide +kernel)
    exact ⟨hstopped.imp fun s h => ⟨h.1, h.2.1⟩, .inr hstopped⟩
  · have hended : ((plainBuild [("nasm", 0)]).2.started.any fun s => s.name == "nasm" &&
        s.outcome.toOption.any fun x => x.2.find (.ofPath "tmp.o") != .missing) = true := by
      decide +kernel
    simp only [List.any_eq_true, Bool.and_eq_true, beq_iff_eq] at hended
    obtain ⟨s, hs, hname, hfind⟩ := hended
    cases hout : s.outcome with
    | error f => simp [hout, Except.toOption] at hfind
    | ok x =>
      exact ⟨x.1, x.2, ⟨s, hs, hname, hout⟩, by simpa [hout, Except.toOption] using hfind,
        .inr (stopped_of_any (by decide +kernel))⟩

end Build

end ExprLang
