/-!
# Where an archive is unpacked to

`Unpack` unpacks into a directory of its own beside the output directory, moves
what was there out of the way and the new directory in, and takes the first
move back if the second fails. Any call on the file system may fail. A move
that fails moves nothing; what a removal or the unpacking leaves when it fails
is not said. The returned error tells where the previous contents are.
-/

namespace Dawgs.Ref.Retriever

variable {F : Type}

/-- What a path may hold. -/
inductive Entry (F : Type) where
  | file
  | directory (files : List F)

/-- The paths of an unpacking, and what they hold. -/
structure Paths (F : Type) where
  output : Option (Entry F)
  staging : Option (Entry F)
  backup : Option (Entry F)

/-- The check of the options, and the calls on the file system. -/
inductive Step where
  | validate | inspect | read | createParent | createStaging | unpack | inspectAgain | readAgain
  | stat
  | createBackup | reserve | backUp | promote | restore | removeBackup | removeStaging

/-- How an unpacking goes: the error of each call, what a call that fails
halfway leaves, and what the archive holds. -/
structure Course (F : Type) where
  error : Step → Option String
  left : Step → Option (Entry F)
  archive : List F

inductive UnpackError where
  | failed (message : String)
  | notRestored (message : String)

abbrev Outcome (F : Type) := Option UnpackError × Paths F

variable (course : Course F) (force : Bool)

/-- A call whose error is returned, behind a text. -/
def attempt (step : Step) (text : String) (paths : Paths F) (next : Outcome F) : Outcome F :=
  match course.error step with
  | some reason => (some (.failed (text ++ reason)), paths)
  | none => next

/-- `preflightUnpackOutputDirectory`, without the path in its texts. -/
def preflight (statDir readDir : Step) (paths : Paths F) (next : Outcome F) : Outcome F :=
  attempt course statDir "inspect output directory: " paths <|
    match paths.output with
    | none => next
    | some .file => (some (.failed "output path exists and is not a directory"), paths)
    | some (.directory files) =>
      attempt course readDir "read output directory: " paths <|
        if 0 < files.length ∧ !force then
          (some (.failed "output directory is not empty; pass -force to replace it"), paths)
        else next

/-- The end of `promoteUnpackStagingDirectory`, when the output path is free. -/
def moveIn (backedUp : Bool) (paths : Paths F) : Outcome F :=
  match course.error .promote, backedUp, course.error .restore, course.error .removeBackup with
  | none, false, _, _ => (none, { paths with output := paths.staging, staging := none })
  | none, true, _, none => (none, ⟨paths.staging, none, none⟩)
  | none, true, _, some _ => (none, ⟨paths.staging, none, course.left .removeBackup⟩)
  | some reason, false, _, _ => (some (.failed ("promote unpacked archive: " ++ reason)), paths)
  | some reason, true, none, _ =>
    (some (.failed ("promote unpacked archive: " ++ reason)),
      { paths with output := paths.backup, backup := none })
  | some reason, true, some restoreReason, _ =>
    (some (.notRestored ("promote unpacked archive: " ++ reason ++
      "; restore output directory: " ++ restoreReason)), paths)

def promoteUnpackStagingDirectory (paths : Paths F) : Outcome F :=
  preflight course force .inspectAgain .readAgain paths <|
    attempt course .stat "inspect output directory: " paths <|
      match paths.output with
      | none => moveIn course false paths
      | some previous =>
        attempt course .createBackup "create output directory backup path: " paths <|
          attempt course .reserve "reserve output directory backup path: "
              { paths with backup := some (.directory []) } <|
            attempt course .backUp "backup output directory: " paths <|
              moveIn course true { paths with output := none, backup := some previous }

/-- The deferred removal of the staging directory. -/
def cleanup (outcome : Outcome F) : Outcome F :=
  match outcome.1, course.error .removeStaging with
  | none, _ => outcome
  | some error, none => (some error, { outcome.2 with staging := none })
  | some error, some _ =>
    (some error, { outcome.2 with staging := course.left .removeStaging })

/-- `Unpack`, with `createUnpackStagingDirectory` in it. -/
def unpack (paths : Paths F) : Outcome F :=
  attempt course .validate "" paths <| preflight course force .inspect .read paths <|
    attempt course .createParent "create unpack parent directory: " paths <|
      attempt course .createStaging "create unpack staging directory: " paths <|
        cleanup course <|
          attempt course .unpack "" { paths with staging := course.left .unpack } <|
            promoteUnpackStagingDirectory course force
              { paths with staging := some (.directory course.archive) }

variable {course force} {paths : Paths F} {next : Outcome F} {P : Outcome F → Prop}

theorem attempt_ind {step : Step} {text : String} (hfail : ∀ m, P (some (.failed m), paths))
    (hnext : P next) : P (attempt course step text paths next) := by
  unfold attempt
  split
  · exact hfail _
  · exact hnext

theorem preflight_ind {statDir readDir : Step} (hfail : ∀ m, P (some (.failed m), paths))
    (hnext : P next) : P (preflight course force statDir readDir paths next) := by
  refine attempt_ind hfail ?_
  split
  · exact hnext
  · exact hfail _
  · refine attempt_ind hfail ?_
    split
    · exact hfail _
    · exact hnext

/-- An outcome, where the output path held `output` before. -/
structure Settled (course : Course F) (output : Option (Entry F)) (outcome : Outcome F) : Prop where
  promoted : outcome.1 = none →
    outcome.2.output = some (.directory course.archive) ∧ outcome.2.staging = none
  kept : ∀ message, outcome.1 = some (.failed message) → outcome.2.output = output
  backedUp : ∀ message, outcome.1 = some (.notRestored message) →
    outcome.2.output = none ∧ output.isSome ∧ outcome.2.backup = output

theorem settled_failed {output : Option (Entry F)} (h : paths.output = output) (message : String) :
    Settled course output (some (.failed message), paths) := ⟨nofun, fun _ _ => h, nofun⟩

section

variable (paths : Paths F) (hstaging : paths.staging = some (.directory course.archive))
include hstaging

theorem settled_moveIn
    (hfree : paths.output = none) : Settled course none (moveIn course false paths) ∧
      (paths.backup.isSome → Settled course paths.backup (moveIn course true paths)) := by
  unfold moveIn
  constructor
  · cases course.error .promote with
    | none => exact ⟨fun _ => ⟨hstaging, rfl⟩, nofun, nofun⟩
    | some reason => exact settled_failed hfree _
  · intro hbackup
    cases course.error .promote with
    | none => cases course.error .removeBackup <;> exact ⟨fun _ => ⟨hstaging, rfl⟩, nofun, nofun⟩
    | some reason =>
      cases course.error .restore with
      | none => exact ⟨nofun, fun _ _ => rfl, nofun⟩
      | some restoreReason => exact ⟨nofun, nofun, fun _ _ => ⟨hfree, hbackup, rfl⟩⟩

theorem settled_promote
    :
    Settled course paths.output (promoteUnpackStagingDirectory course force paths) := by
  refine preflight_ind (settled_failed rfl) (attempt_ind (settled_failed rfl) ?_)
  split
  next houtput =>
    rw [houtput]
    exact (settled_moveIn paths hstaging houtput).1
  next previous houtput =>
    have hmoved := (settled_moveIn ⟨none, paths.staging, some previous⟩ hstaging rfl).2 rfl
    rw [← houtput] at hmoved ⊢
    exact attempt_ind (settled_failed rfl) <| attempt_ind (settled_failed rfl) <|
      attempt_ind (settled_failed rfl) hmoved

end

/-- Whichever calls fail: without an error the output directory holds what the
archive holds; with one it holds what it held, unless the error says that the
restoring failed, when that is in the backup directory. And a staging directory
that can be removed is. -/
theorem unpack_settled (course : Course F) (force : Bool) (paths : Paths F) :
    Settled course paths.output (unpack course force paths) ∧
      (paths.staging = none → course.error .removeStaging = none →
        (unpack course force paths).2.staging = none) := by
  let Good (outcome : Outcome F) := Settled course paths.output outcome ∧
    (paths.staging = none → course.error .removeStaging = none → outcome.2.staging = none)
  have hfail : ∀ m, Good (some (.failed m), paths) := fun m => ⟨settled_failed rfl m, fun h _ => h⟩
  have hcleanup : ∀ outcome, Settled course paths.output outcome →
      Good (cleanup course outcome) := by
    rintro ⟨error, after⟩ h
    unfold cleanup
    split
    next he => exact ⟨h, fun _ _ => (h.promoted he).2⟩
    next he _ => exact ⟨⟨nofun, he ▸ h.kept, he ▸ h.backedUp⟩, fun _ _ => rfl⟩
    next he hremove => exact ⟨⟨nofun, he ▸ h.kept, he ▸ h.backedUp⟩, by simp [hremove]⟩
  exact attempt_ind (P := Good) hfail <| preflight_ind (P := Good) hfail <|
    attempt_ind (P := Good) hfail <| attempt_ind (P := Good) hfail <|
      hcleanup _ <| attempt_ind (settled_failed rfl) <|
      settled_promote { paths with staging := some (.directory course.archive) } rfl

end Dawgs.Ref.Retriever
