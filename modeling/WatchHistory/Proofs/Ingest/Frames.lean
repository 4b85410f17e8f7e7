import WatchHistory.Proofs.Ingest.Writes
import WatchHistory.Proofs.Store.Agree

/-!
# What a stage leaves alone

A stage changes rows of its own table only (`Stage.agree_after`), so stages of other tables can run
in between without a difference to what it finds. The observation before is looked up in the table
of observations only (`Intake.previous?_eq`).
-/

set_option autoImplicit false

namespace WatchHistory

open Store

namespace Intake

variable {r : Intake}

theorem previous?_eq {g : Granularity} {s s' : Store} (h : Agree .watch s s') :
    r.previous? g s = r.previous? g s' := by
  unfold previous?
  dsimp only
  rw [h.previousKey_eq g]
  split
  · rw [h.get_eq]
  · rfl

theorem isNew_eq {g : Granularity} {keepMinor : Bool} {s s' : Store} (h : Agree .watch s s') :
    r.isNew g keepMinor s = r.isNew g keepMinor s' := by
  unfold isNew
  rw [previous?_eq h]

end Intake

namespace Stage

variable {g : Granularity} {keepMinor : Bool} {r : Intake} {s s' : Store} {t : Table}

theorem agree_addGroups {reason : String} {groups : List (String × List (Int × Int))}
    (ht : t ≠ .eventCount)
    (h : groups.foldlM (fun s group => r.addBuckets reason group.1 group.2 s) s = .ok s') :
    Agree t s s' := by
  induction groups generalizing s with
  | nil =>
    cases h
    exact .refl _ _
  | cons group groups ih =>
    rw [List.foldlM_cons] at h
    obtain ⟨s₁, hadd, h⟩ := bind_eq_ok.mp h
    obtain ⟨minutes, -, hset⟩ := Intake.addBuckets_eq_ok.mp hadd
    exact (Agree.of_set hset ht.symm).trans (ih h)

/-- A stage changes no row of a table other than its own. -/
theorem agree_after {stage : Stage} (h : stage.table ≠ t) :
    Agree t s (stage.after g keepMinor r s) := by
  by_cases hstage : stage = .eventCount
  · subst hstage
    rcases after_eventCount_cases g keepMinor r s with hsame | ⟨reason, d, lastMinute, -, -, hadd⟩
    · rw [hsame]
      exact .refl t s
    · exact agree_addGroups (Ne.symm h) hadd
  · rcases after_cases g keepMinor r s hstage with
      hsame | ⟨rfl, hset⟩ | ⟨u, last, row, rfl, -, -, hset⟩
    · rw [hsame]
      exact .refl t s
    · exact .of_set hset h
    · exact .of_set hset h

theorem agree_foldl_after {stages : List Stage} (h : ∀ stage ∈ stages, stage.table ≠ t) :
    Agree t s (stages.foldl (after g keepMinor r) s) := by
  induction stages generalizing s with
  | nil => exact .refl t s
  | cons stage stages ih =>
    exact (agree_after (h stage List.mem_cons_self)).trans
      (ih fun x hx => h x (List.mem_cons_of_mem _ hx))

end Stage

end WatchHistory
