import LeftHand.Command.Compile
import LeftHand.Proofs.Files.Directory

/-!
The files that a compilation leaves behind. One that succeeds writes one file, and for a while the
object file from which that is linked; only the linker, and the line that reports success, can fail
later.
-/

namespace LeftHand

open List

/-- A name with the suffix of object files leads to a place below. -/
theorem Path.step_object (place : Location) (stem : List Char) :
    step place (stem ++ ".o".toList) = place ++ [stem ++ ".o".toList] := by
  have ends (name : List Char) (isDots : name.getLast? = some '.') : stem ++ ".o".toList ≠ name := by
    rintro rfl
    simp at isDots
  rw [step, if_neg (ends _ rfl), if_neg (ends _ rfl)]

/-- Wherever the last name of an output leads without its suffix, the object file is not there. -/
theorem Path.location_object_ne {path object target : Path} (home : Location)
    (named : path.withSuffix ".o" = .ok object) (alsoNamed : path.withSuffix "" = .ok target) :
    object.location home ≠ target.location home := by
  obtain ⟨front, name, parts, rfl⟩ := exists_of_withSuffix named
  obtain ⟨_, _, sameParts, rfl⟩ := exists_of_withSuffix alsoNamed
  obtain ⟨rfl, same⟩ := append_inj' (parts.symm.trans sameParts) rfl
  cases same
  -- Both paths go the same way up to their last names.
  have places (last : List Char) : location home { path with parts := front ++ [last] } =
      step (front.foldl step (path.start home)) last := by
    rw [location, foldl_append]
    rfl
  rw [places, places, step_object]
  rw [step]
  split
  · simp
  · split
    · intro same
      have lengths := congrArg length same
      simp at lengths
      omega
    · simp

/-- The file that a compilation is asked for. -/
def CompileOptions.artifact (options : CompileOptions) : Except PathError Path :=
  options.output.withSuffix (if options.isAsm then ".s" else "")

/-- Where the object file is from which an executable file is linked; assembly code needs none. -/
def CompileOptions.object? (options : CompileOptions) (home : Location) : Option Location :=
  if options.isAsm then none else (options.output.withSuffix ".o").toOption.map (·.location home)

theorem successLine_injective : Function.Injective successLine :=
  fun _ _ same => (String.append_right_inj _).mp same

theorem successLine_ne (written text : String) : successLine written ≠ "Error: " ++ text := by
  intro same
  have heads := congrArg (·.toList.head?) (show "Success: Output written to " ++ written = _ from same)
  simp at heads

@[simp] theorem CommandResult.directory_say (console : Console) (line : String)
    (result : CommandResult) : (result.say console line).directory = result.directory := by
  rw [say]
  split <;> rfl

/-- The ways in which a compilation can end. -/
inductive CommandResult.Ends (console : Console) (options : CompileOptions) (directory : Directory) :
    CommandResult → Prop where
  /-- No file has been touched yet when it fails. -/
  | fails {printed changed error} (unsaid : ∀ written, successLine written ∉ printed)
      (early : ∀ written, error ≠ .unshown (successLine written))
      (kept : changed.files = directory.files) : Ends console options directory ⟨printed, changed, some error⟩
  | reads (unbuilt : options.isBuild = false) : Ends console options directory ⟨[], directory, none⟩
  /-- The linker fails behind the object file. -/
  | unlinked {changed output object} (isBuild : options.isBuild = true) :
      Ends console options directory ⟨[], changed, some (.unlinked output object)⟩
  /-- The line that reports success comes last of all. -/
  | writes {changed artifact reported} (text : String) (isBuild : options.isBuild = true)
      (reports : reported = if options.isAsm then artifact else options.output)
      (named : options.artifact = .ok artifact) (there : changed.isFile artifact = true)
      (left : ∀ place, changed.text? place = if place ∈ options.object? directory.home then none
        else if place = artifact.location directory.home then some text else directory.text? place) :
      Ends console options directory
        (.say console (successLine reported.text) ⟨[], changed, none⟩)

section Compilation

variable {console : Console} {options : CompileOptions} {directory : Directory}

section

variable {made : Directory} (isBuild : options.isBuild = true) (files : made.files = directory.files)
  (home : made.home = directory.home)

include isBuild files home

theorem emitExecutable_ends (isLinked : options.isAsm = false) (code : String) :
    (emitExecutable console made options.output code).Ends console options directory := by
  rw [emitExecutable]
  split
  · exact .fails (by simp) (by simp) files
  · exact .fails (by simp) (by simp) files
  · rename_i object target named alsoNamed
    split
    · exact .fails (by simp) (by simp) files
    · rename_i withObject written
      split
      · exact .unlinked isBuild
      · rename_i linked alsoWritten
        obtain ⟨place, located, _, rfl⟩ := Directory.write_eq_ok.mp written
        obtain ⟨last, alsoLocated, _, rfl⟩ := Directory.write_eq_ok.mp alsoWritten
        rw [Directory.locate_put] at alsoLocated
        have apart := Path.location_object_ne directory.home named alsoNamed
        have objectHere : object.location directory.home = place :=
          home ▸ Directory.location_eq located
        have targetHere : target.location directory.home = last :=
          home ▸ Directory.location_eq alsoLocated
        -- The object file is still where it was written.
        have removed : ((made.put place code).put last code).remove object =
            .ok (((made.put place code).put last code).erase place) := by
          refine bind_eq_ok.mpr ⟨place, Directory.locate_put.mpr (Directory.locate_put.mpr located), ?_⟩
          rw [if_neg]
          · rfl
          · simp only [Directory.text?_put]
            split <;> simp
        have isArtifact : options.artifact = .ok target := by
          rw [CompileOptions.artifact, isLinked]
          exact alsoNamed
        have isObject (found : Location) : found ∈ options.object? directory.home ↔ found = place := by
          simp [CompileOptions.object?, isLinked, named, Except.toOption, objectHere, eq_comm]
        have there : (((made.put place code).put last code).erase place).isFile target = true := by
          refine Directory.isFile_eq_true.mpr ⟨last, ?_, ?_⟩
          · exact Directory.locate_erase.mpr
              (Directory.locate_put.mpr (Directory.locate_put.mpr alsoLocated))
          · have others : last ≠ place := fun same => apart (by rw [objectHere, targetHere, same])
            simp [Directory.text?_erase, Directory.text?_put, others]
        simp only [removeObject, named, removed]
        refine .writes code isBuild (by simp [isLinked]) isArtifact there fun found => ?_
        -- What the object file was written over does not show, as it is removed in any case.
        simp only [isObject, Directory.text?_erase, Directory.text?_put, targetHere]
        split
        · rfl
        · simp only [Directory.text?, files]

theorem emitAsm_ends (isAsm : options.isAsm = true) (code : String) :
    (emitAsm console made options.output code).Ends console options directory := by
  rw [emitAsm]
  split
  · exact .fails (by simp) (by simp) files
  · rename_i target named
    split
    · exact .fails (by simp) (by simp) files
    · rename_i written
      obtain ⟨place, located, _, rfl⟩ := Directory.write_eq_ok.mp written
      have isArtifact : options.artifact = .ok target := by
        rw [CompileOptions.artifact, isAsm]
        exact named
      have there : (made.put place code).isFile target = true :=
        Directory.isFile_eq_true.mpr
          ⟨place, Directory.locate_put.mpr located, by simp [Directory.text?_put]⟩
      refine .writes code isBuild (by simp [isAsm]) isArtifact there fun found => ?_
      rw [if_neg (by simp [CompileOptions.object?, isAsm]), Directory.text?_put, ← home,
        Directory.location_eq located]
      simp only [Directory.text?, files]

end

theorem emitFiles_ends (isBuild : options.isBuild = true) (globals : List Ir.Global) :
    (emitFiles console options directory globals).Ends console options directory := by
  rw [emitFiles]
  -- The module is checked and folders are made before anything is written.
  split
  · exact .fails (by simp) (by simp) rfl
  · split
    · exact .fails (by simp) (by simp) rfl
    · rename_i made
      obtain ⟨files, home⟩ := Directory.makeFolders_files made
      split
      · rename_i isAsm
        exact emitAsm_ends isBuild files home isAsm _
      · rename_i isLinked
        exact emitExecutable_ends isBuild files home (by simpa using isLinked) _

/-- A line that reports no success may be refused, but no file has been touched then either. -/
theorem CommandResult.Ends.say {line : String} {error : CommandError}
    (other : ∀ written, successLine written ≠ line)
    (early : ∀ written, error ≠ .unshown (successLine written)) :
    (CommandResult.say console line ⟨[], directory, some error⟩).Ends console options directory := by
  rw [CommandResult.say]
  split
  · exact .fails (by simpa using other) early rfl
  · refine .fails (by simp) (fun written same => ?_) rfl
    exact other written (CommandError.unshown.inj same).symm

theorem CompileError.fail_ends (error : CompileError) :
    (error.fail console directory).Ends console options directory := by
  cases error with
  | source => exact .fails (by simp) (by simp) rfl
  | fault reason =>
    cases reason with
    | reported diagnostic pos =>
      refine .say (fun written => ?_) (by simp)
      rw [Diagnostic.line]
      simp only [String.append_assoc]
      exact successLine_ne written _
    | _ => exact .fails (by simp) (by simp) rfl

theorem compileSource_ends (text : List Char) :
    (compileSource console options directory text).Ends console options directory := by
  rw [compileSource]
  split
  · exact CompileError.fail_ends _
  · split
    · exact .fails (by simp) (by simp) rfl
    · split
      · rename_i unbuilt
        exact .reads (by simpa using unbuilt)
      · rename_i isBuild
        split
        · exact CompileError.fail_ends _
        · exact emitFiles_ends (by simpa using isBuild) _

/-- Every compilation ends in one of these ways. -/
theorem compileFile_ends (console : Console) (options : CompileOptions) (directory : Directory)
    (input : Path) :
    (compileFile console options directory input).Ends console options directory := by
  rw [compileFile]
  -- A missing file, a level that there is not and a file that is no text are refused at once.
  split
  · exact .say (fun written => successLine_ne written _) (by simp)
  · split
    · exact .say (fun written => successLine_ne written _) (by simp)
    · split
      · exact .fails (by simp) (by simp) rfl
      · exact compileSource_ends _

end Compilation

/-- A compilation that fails before the linker and before the line that reports success, and one
that is not asked to build, leave all files as they were. One that succeeds, or fails at this line,
leaves the files that were there, and the one that was asked for, but no object file beside an
executable file: what stands at each place is told. Files are told apart by their places, so
different spellings of a path are the same file. -/
theorem compileFile_files (console : Console) (options : CompileOptions) (directory : Directory)
    (input : Path) :
    let result := compileFile console options directory input
    (result.error ≠ none → (∀ output object, result.error ≠ some (.unlinked output object)) →
      (∀ written, result.error ≠ some (.unshown (successLine written))) →
      result.directory.files = directory.files) ∧
    (options.isBuild = false → result.directory.files = directory.files) ∧
    ((result.error = none ∨ ∃ written, result.error = some (.unshown (successLine written))) →
      options.isBuild = true → ∃ artifact text, options.artifact = .ok artifact ∧
        result.directory.isFile artifact = true ∧
        ∀ place, result.directory.text? place = if place ∈ options.object? directory.home then none
          else if place = artifact.location directory.home then some text
          else directory.text? place) := by
  intro result
  have ends : result.Ends console options directory := compileFile_ends console options directory input
  clear_value result
  cases ends with
  | fails _ early kept =>
    refine ⟨fun _ _ _ => kept, fun _ => kept, fun fine => ?_⟩
    rcases fine with none | ⟨written, same⟩
    · cases none
    · exact absurd (Option.some.inj same) (early written)
  | reads unbuilt =>
    refine ⟨fun _ _ _ => rfl, fun _ => rfl, fun _ isBuild => ?_⟩
    rw [unbuilt] at isBuild
    cases isBuild
  | unlinked isBuild =>
    refine ⟨fun _ linked => absurd rfl (linked _ _), fun unbuilt => ?_, fun fine => ?_⟩
    · rw [unbuilt] at isBuild
      cases isBuild
    · rcases fine with none | ⟨written, same⟩
      · cases none
      · cases same
  | @writes changed artifact _ text isBuild _ named there left =>
    rw [CommandResult.directory_say]
    refine ⟨fun failed _ shown => ?_, fun unbuilt => ?_,
      fun _ _ => ⟨artifact, text, named, there, left⟩⟩
    · -- Behind the files, only the last line can fail.
      rw [CommandResult.say] at failed shown
      split at failed
      · exact absurd rfl failed
      · rename_i refused
        rw [if_neg refused] at shown
        exact absurd rfl (shown _)
    · rw [unbuilt] at isBuild
      cases isBuild

/-- A file with the name of the object file is lost when an executable file is made. -/
theorem not_object_kept :
    let input := Path.ofText "m!1eft"
    let object := Path.ofText "1eft_out.o"
    let before := Directory.holding [(input, "def dect start %s ret %d@!d$ !s"), (object, "mine")]
    let result := compileFile .plain {} before input
    result.error = none ∧ before.isFile object = true ∧ result.directory.isFile object = false := by
  decide +kernel

/-- It is lost also if the path of the output comes back from another folder. -/
example :
    let input := Path.ofText "m!1eft"
    let object := Path.ofText "1eft_out.o"
    let result := compileFile .plain { output := .ofText "d/../1eft_out" }
      (.holding [(input, "def dect start %s ret %d@!d$ !s"), (object, "mine")]) input
    result.error = none ∧ result.directory.isFile object = false := by
  decide +kernel

/-- A console on which a line is seen as it stands. -/
def Console.IsVerbatim (console : Console) (line : String) : Prop :=
  console.line? line = some line

/-- The suffix of the last name of a path. -/
def Path.suffix (path : Path) : List Char :=
  (splitSuffix (path.parts.getLast?.getD [])).2

theorem splitSuffix_append (name : List Char) : (splitSuffix name).1 ++ (splitSuffix name).2 = name := by
  unfold splitSuffix
  dsimp only
  split <;> simp

/-- Behind the same names, a last name stands at the end of the text. -/
theorem exists_intercalate_eq (front : List String) :
    ∃ lead, ∀ last, "/".intercalate (front ++ [last]) = lead ++ last := by
  induction front with
  | nil => exact ⟨"", fun last => by simp⟩
  | cons name front ih =>
    obtain ⟨lead, ends⟩ := ih
    refine ⟨name ++ "/" ++ lead, fun last => ?_⟩
    rw [String.append_assoc, ← ends]
    cases front <;> exact String.intercalate_cons_cons

/-- Without its suffix a path has another text, unless it had none. -/
theorem Path.text_eq_iff {path bare : Path} (named : path.withSuffix "" = .ok bare) :
    path.text = bare.text ↔ path.suffix = [] := by
  obtain ⟨isAbsolute, parts⟩ := path
  rcases eq_nil_or_concat parts with rfl | ⟨front, name, rfl⟩
  · cases named
  · have bareParts : ⟨isAbsolute, front ++ [(splitSuffix name).1]⟩ = bare := by
      simpa [withSuffix] using named
    obtain ⟨lead, ends⟩ := exists_intercalate_eq (front.map String.ofList)
    have texts (last : List Char) : text ⟨isAbsolute, front ++ [last]⟩ =
        (if isAbsolute then "/" else "") ++ (lead ++ String.ofList last) := by
      rw [← ends, ← map_singleton, ← map_append]
      cases isAbsolute <;> cases front <;> rfl
    have last : suffix ⟨isAbsolute, front ++ [name]⟩ = (splitSuffix name).2 := by simp [suffix]
    rw [concat_eq_append, ← bareParts, texts, texts, last, String.append_right_inj,
      String.append_right_inj, String.ofList_inj]
    nth_rewrite 1 [← splitSuffix_append name]
    exact append_right_eq_self

/-- Success is reported exactly if a compilation is asked to build and nothing fails. The file that
it wrote is there then. On a console that leaves the line as it stands, the line that is seen names
this file only if it is assembly code or if the output that was asked for has no suffix. -/
theorem success_names_artifact_iff (console : Console) (options : CompileOptions)
    (directory : Directory) (input : Path) :
    let result := compileFile console options directory input
    ((∃ written, successLine written ∈ result.printed) ↔
      result.error = none ∧ options.isBuild = true) ∧
    ∀ written, successLine written ∈ result.printed →
      ∃ artifact, options.artifact = .ok artifact ∧ result.directory.isFile artifact = true ∧
        (console.IsVerbatim (successLine written) →
          (console.line? (successLine written) = some (successLine artifact.text) ↔
            options.isAsm = true ∨ options.output.suffix = [])) := by
  intro result
  have ends : result.Ends console options directory := compileFile_ends console options directory input
  clear_value result
  cases ends with
  | fails unsaid => exact ⟨by simpa using unsaid, fun written said => absurd said (unsaid written)⟩
  | reads unbuilt => simp [unbuilt]
  | unlinked => simp
  | @writes changed artifact _ text isBuild reports named there left =>
    rw [CommandResult.say]
    split
    · refine ⟨by simp [isBuild], fun written said => ⟨artifact, named, there, fun verbatim => ?_⟩⟩
      obtain rfl := successLine_injective (mem_singleton.mp said)
      rw [verbatim, Option.some.injEq, successLine_injective.eq_iff]
      rw [CompileOptions.artifact] at named
      rw [reports]
      split
      · rename_i isAsm
        simp [isAsm]
      · rename_i isLinked
        rw [if_neg isLinked] at named
        simp [isLinked, Path.text_eq_iff named]
    · simp

/-- The line names a file that is not there if the output has a suffix. -/
theorem not_named_with_suffix :
    let input := Path.ofText "m!1eft"
    let result := compileFile .plain { output := .ofText "a.out" }
      (.holding [(input, "def dect start %s ret %d@!d$ !s")]) input
    result.printed = [successLine "a.out"] ∧ result.directory.isFile (Path.ofText "a") = true ∧
      result.directory.isFile (Path.ofText "a.out") = false := by
  decide +kernel

end LeftHand
