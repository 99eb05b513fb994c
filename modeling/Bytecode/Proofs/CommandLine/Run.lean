import Bytecode.CommandLine.Run
import Bytecode.Proofs.FileSystem.Saving

/-!
# What a run leaves behind

A run of the command line changes no file but its log, which afterwards holds the records of the
run, and its exit code tells whether a program was run.
-/

namespace Bytecode
namespace CommandLine

variable {fuel : Nat} {files : FileTree} {options : Options} {words : List String}

/-- What may be left of a program that was run, with the log that was made. -/
structure Leaves (files : FileTree) (options : Options) (outcome : Outcome) : Prop where
  exitCode : outcome.exitCode = 0 ∨ outcome.exitCode = 1
  files : ∃ records, outcome.files = LogFile.write (LogFile.create files options).1
    (LogFile.create files options).2.1 (options.record :: records)

theorem runProgram_leaves : Leaves files options (runProgram fuel files options) := by
  unfold runProgram
  dsimp only
  split
  · exact ⟨.inl rfl, _, rfl⟩
  · exact ⟨.inr rfl, _, rfl⟩
  · exact ⟨.inr rfl, _, rfl⟩

/-- The exit code of a run is two if its words ask for nothing that can be done. -/
theorem exitCode_eq_two_iff :
    (run fuel files words).exitCode = 2 ↔ ∃ misuse, read words = .error misuse := by
  unfold run
  constructor
  · intro h
    have hne : (0 : UInt8) ≠ 2 := by decide
    split at h
    next options hread =>
      rcases runProgram_leaves.exitCode with hzero | hone
      · rw [hzero] at h
        exact absurd h hne
      · rw [hone] at h
        exact absurd h (by decide)
    next => exact absurd h hne
    next => exact absurd h hne
    next misuse hread => exact ⟨misuse, hread⟩
  · rintro ⟨misuse, hread⟩
    rw [hread]

theorem files_of_not_run (h : ∀ options, read words ≠ .ok (.run options)) :
    (run fuel files words).files = files := by
  unfold run
  split
  next options hread => exact absurd hread (h options)
  all_goals rfl

theorem files_of_no_log {cause : FileFault} (h : files.save options.logFile [] = .error cause) :
    (runProgram fuel files options).files = files := by
  obtain ⟨records, hfiles⟩ := (@runProgram_leaves fuel files options).files
  rw [hfiles, LogFile.create, h]
  rfl

/-- The log holds the records that its threshold admits, the first of them about the options; all
other files that can be read are as they were. -/
theorem log_of_run {emptied : FileTree} (h : files.save options.logFile [] = .ok emptied) :
    ∃ records after, (runProgram fuel files options).files = after ∧
      after.contents options.logFile = .ok (Record.render options.logLevel
        (options.record :: records)).toUTF8.toList ∧
      ∀ path bytes, files.contents path = .ok bytes → after.contents path = .ok bytes ∨
        after.contents path = after.contents options.logFile := by
  obtain ⟨records, hfiles⟩ := (@runProgram_leaves fuel files options).files
  obtain ⟨after, hsave, hothers⟩ := FileTree.save_again h
    (Record.render options.logLevel (options.record :: records)).toUTF8.toList
  have hlog := FileTree.contents_of_save hsave
  refine ⟨records, after, ?_, hlog, fun path bytes hbytes => ?_⟩
  · simp only [hfiles, LogFile.create, h, LogFile.write, hsave]
  · rw [hlog]
    exact hothers path bytes hbytes

end CommandLine
end Bytecode
