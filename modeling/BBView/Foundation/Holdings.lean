import Mathlib.Tactic

/-!
# Resources that code holds

Code acquires, uses and releases resources.  A trace of what it does is in order if nothing is acquired
that is held already and nothing is used or released that is not held.  Code that stops at the first
call that fails, and then releases a list of what it holds, is a ladder.
-/

/-- What code does with a resource. -/
inductive Use (ρ : Type*)
  | acquire (resource : ρ)
  | borrow (resource : ρ)
  | release (resource : ρ)
  deriving DecidableEq

namespace Use

variable {ρ : Type*} [DecidableEq ρ]

/-- What is held after one use, where it is in order. -/
def apply (held : Finset ρ) : Use ρ → Option (Finset ρ)
  | acquire resource => if resource ∈ held then none else some (insert resource held)
  | borrow resource => if resource ∈ held then some held else none
  | release resource => if resource ∈ held then some (held.erase resource) else none

/-- What is held after a trace, where it is in order. -/
def replay (held : Finset ρ) (uses : List (Use ρ)) : Option (Finset ρ) :=
  uses.foldlM apply held

variable {held after : Finset ρ} {resource : ρ} {uses later : List (Use ρ)}

@[simp]
theorem replay_nil (held : Finset ρ) : replay held [] = some held := rfl

theorem replay_append (held : Finset ρ) (uses later : List (Use ρ)) :
    replay held (uses ++ later) = (replay held uses).bind fun held => replay held later :=
  List.foldlM_append

theorem replay_acquire (fresh : resource ∉ held) :
    replay held (acquire resource :: uses) = replay (insert resource held) uses := by
  rw [replay, List.foldlM_cons, apply, if_neg fresh]
  rfl

theorem replay_borrow (present : resource ∈ held) :
    replay held (borrow resource :: uses) = replay held uses := by
  rw [replay, List.foldlM_cons, apply, if_pos present]
  rfl

theorem replay_borrow_eq_none (absent : resource ∉ held) :
    replay held (borrow resource :: uses) = none := by
  rw [replay, List.foldlM_cons, apply, if_neg absent]
  rfl

theorem replay_release (present : resource ∈ held) :
    replay held (release resource :: uses) = replay (held.erase resource) uses := by
  rw [replay, List.foldlM_cons, apply, if_pos present]
  rfl

/-- Different resources that are held can be released one after the other. -/
theorem replay_releases {resources : List ρ} (distinct : resources.Nodup)
    (present : ∀ resource ∈ resources, resource ∈ held) :
    replay held (resources.map release) = some (held \ resources.toFinset) := by
  induction resources generalizing held with
  | nil => simp
  | cons first resources ih =>
      obtain ⟨new, distinct⟩ := List.nodup_cons.mp distinct
      rw [List.map_cons, replay_release (present first List.mem_cons_self), ih distinct]
      · rw [List.toFinset_cons, Finset.sdiff_insert, ← Finset.erase_sdiff_comm]
      · intro resource member
        refine Finset.mem_erase.mpr ⟨?_, present resource (List.mem_cons_of_mem first member)⟩
        rintro rfl
        exact new member

/-- A trace that is in order is in order up to each point. -/
theorem exists_replay_of_prefix (early : uses <+: later) (replayed : replay held later = some after) :
    ∃ middle, replay held uses = some middle := by
  obtain ⟨rest, rfl⟩ := early
  rw [replay_append] at replayed
  obtain ⟨middle, replayed, -⟩ := Option.bind_eq_some_iff.mp replayed
  exact ⟨middle, replayed⟩

/-- A trace is in order and leaves what has the property. -/
def Ends (P : Finset ρ → Prop) (held : Finset ρ) (uses : List (Use ρ)) : Prop :=
  ∃ left, replay held uses = some left ∧ P left

namespace Ends

variable {P Q : Finset ρ → Prop}

theorem nil (holds : P held) : Ends P held [] := ⟨held, rfl, holds⟩

theorem acquire (fresh : resource ∉ held) (rest : Ends P (insert resource held) uses) :
    Ends P held (.acquire resource :: uses) := by
  rw [Ends, replay_acquire fresh]
  exact rest

theorem borrow (present : resource ∈ held) (rest : Ends P held uses) :
    Ends P held (.borrow resource :: uses) := by
  rw [Ends, replay_borrow present]
  exact rest

theorem release (present : resource ∈ held) (rest : Ends P (held.erase resource) uses) :
    Ends P held (.release resource :: uses) := by
  rw [Ends, replay_release present]
  exact rest

/-- All that is held but for what is kept is released, in any order. -/
theorem release_all {kept : Finset ρ} {resources released : List ρ} (same : released.Perm resources)
    (distinct : resources.Nodup) (apart : ∀ resource ∈ kept, resource ∉ resources) (holds : P kept) :
    Ends P (kept ∪ resources.toFinset) (released.map .release) := by
  refine ⟨_, replay_releases (same.nodup_iff.mpr distinct) fun resource member => ?_, ?_⟩
  · exact Finset.mem_union_right _ (List.mem_toFinset.mpr (same.mem_iff.mp member))
  · rw [List.toFinset_eq_of_perm _ _ same, Finset.union_sdiff_right,
      Finset.sdiff_eq_self_of_disjoint]
    · exact holds
    · rw [Finset.disjoint_left]
      intro resource member found
      exact apart resource member (List.mem_toFinset.mp found)

theorem append (first : Ends (fun held => Ends P held later) held uses) :
    Ends P held (uses ++ later) := by
  obtain ⟨middle, replayed, left, rest, holds⟩ := first
  refine ⟨left, ?_, holds⟩
  rw [replay_append, replayed]
  exact rest

theorem mono (ends : Ends P held uses) (weaken : ∀ left, P left → Q left) : Ends Q held uses := by
  obtain ⟨left, replayed, holds⟩ := ends
  exact ⟨left, replayed, weaken left holds⟩

end Ends

end Use

/-! ## Ladders -/

/-- Calls, each of which may fail, with the resource a call gives and what is released when it fails. -/
structure Ladder (κ ρ : Type*) where
  gives : κ → Option ρ
  cleanup : κ → List ρ

namespace Ladder

variable {κ ρ : Type*} [DecidableEq ρ]

/-- A step of code that stops where a call fails. -/
inductive Rung (κ ρ : Type*)
  /-- A call whose failure ends the code. -/
  | need (call : κ)
  /-- A call whose failure goes unnoticed. -/
  | attempt (call : κ)
  | act (use : Use ρ)

variable (ladder : Ladder κ ρ) (succeeds : κ → Bool)

/-- What a successful call gives. -/
def given (call : κ) : List (Use ρ) := (ladder.gives call).toList.map Use.acquire

/-- The trace of the code. -/
def uses : List (Rung κ ρ) → List (Use ρ)
  | [] => []
  | .need call :: rungs =>
      if succeeds call = true then ladder.given call ++ uses rungs
      else (ladder.cleanup call).map Use.release
  | .attempt call :: rungs =>
      if succeeds call = true then ladder.given call ++ uses rungs else uses rungs
  | .act use :: rungs => use :: uses rungs

variable {ladder succeeds} {P : Finset ρ → Prop} {held : Finset ρ} {call : κ} {resource : ρ}
  {rungs : List (Rung κ ρ)}

/-- A call that gives a resource. -/
theorem ends_need (gives : ladder.gives call = some resource) (fresh : resource ∉ held)
    (distinct : (ladder.cleanup call).Nodup)
    (present : ∀ resource ∈ ladder.cleanup call, resource ∈ held)
    (fails : succeeds call = false → P (held \ (ladder.cleanup call).toFinset))
    (rest : succeeds call = true → Use.Ends P (insert resource held) (ladder.uses succeeds rungs)) :
    Use.Ends P held (ladder.uses succeeds (.need call :: rungs)) := by
  rw [uses]
  split
  · rename_i succeeded
    rw [given, gives]
    exact .acquire fresh (rest succeeded)
  · rename_i failed
    exact ⟨_, Use.replay_releases distinct present, fails (by simpa using failed)⟩

/-- A call that gives nothing. -/
theorem ends_need_none (gives : ladder.gives call = none) (distinct : (ladder.cleanup call).Nodup)
    (present : ∀ resource ∈ ladder.cleanup call, resource ∈ held)
    (fails : succeeds call = false → P (held \ (ladder.cleanup call).toFinset))
    (rest : succeeds call = true → Use.Ends P held (ladder.uses succeeds rungs)) :
    Use.Ends P held (ladder.uses succeeds (.need call :: rungs)) := by
  rw [uses]
  split
  · rename_i succeeded
    rw [given, gives]
    exact rest succeeded
  · rename_i failed
    exact ⟨_, Use.replay_releases distinct present, fails (by simpa using failed)⟩

/-- A call whose failure releases all that is held but for what is kept. -/
theorem ends_need_keeping {kept : Finset ρ} {resources : List ρ}
    (gives : ladder.gives call = some resource)
    (released : (ladder.cleanup call).Perm resources) (distinct : (resource :: resources).Nodup)
    (apart : ∀ other ∈ kept, other ∉ resource :: resources) (fails : succeeds call = false → P kept)
    (rest : succeeds call = true →
      Use.Ends P (kept ∪ (resource :: resources).toFinset) (ladder.uses succeeds rungs)) :
    Use.Ends P (kept ∪ resources.toFinset) (ladder.uses succeeds (.need call :: rungs)) := by
  obtain ⟨fresh, distinct⟩ := List.nodup_cons.mp distinct
  obtain ⟨new, apart⟩ : resource ∉ kept ∧ ∀ other ∈ kept, other ∉ resources :=
    ⟨fun member => apart resource member List.mem_cons_self,
      fun other member found => apart other member (List.mem_cons_of_mem resource found)⟩
  rw [uses]
  split
  · rename_i succeeded
    rw [given, gives]
    refine .acquire (by simp [new, fresh]) ?_
    rw [← Finset.union_insert, ← List.toFinset_cons]
    exact rest succeeded
  · rename_i failed
    exact .release_all released distinct apart (fails (by simpa using failed))

/-- A call that may give a resource. -/
theorem ends_attempt (gives : ladder.gives call = some resource) (fresh : resource ∉ held)
    (without : succeeds call = false → Use.Ends P held (ladder.uses succeeds rungs))
    (rest : succeeds call = true → Use.Ends P (insert resource held) (ladder.uses succeeds rungs)) :
    Use.Ends P held (ladder.uses succeeds (.attempt call :: rungs)) := by
  rw [uses]
  split
  · rename_i succeeded
    rw [given, gives]
    exact .acquire fresh (rest succeeded)
  · rename_i failed
    exact without (by simpa using failed)

omit [DecidableEq ρ] in
/-- Uses in a row. -/
theorem uses_acts (uses : List (Use ρ)) :
    ladder.uses succeeds (uses.map .act ++ rungs) = uses ++ ladder.uses succeeds rungs := by
  induction uses with
  | nil => rfl
  | cons use uses ih => exact congrArg (use :: ·) ih

/-- Resources that are held are used. -/
theorem ends_borrows {resources : List ρ} (present : ∀ resource ∈ resources, resource ∈ held)
    (rest : Use.Ends P held (ladder.uses succeeds rungs)) :
    Use.Ends P held (ladder.uses succeeds ((resources.map .borrow).map .act ++ rungs)) := by
  rw [uses_acts]
  induction resources with
  | nil => exact rest
  | cons resource resources ih =>
      obtain ⟨first, later⟩ := List.forall_mem_cons.mp present
      exact .borrow first (ih later)

/-- The calls that end the code where they fail. -/
def needs : List (Rung κ ρ) → List κ
  | [] => []
  | .need call :: rungs => call :: needs rungs
  | .attempt _ :: rungs | .act _ :: rungs => needs rungs

omit [DecidableEq ρ] in
theorem needs_append (first second : List (Rung κ ρ)) :
    needs (first ++ second) = needs first ++ needs second := by
  induction first with
  | nil => rfl
  | cons rung first ih => cases rung <;> simp [needs, ih]

omit [DecidableEq ρ] in
theorem needs_acts (uses : List (Use ρ)) : needs (uses.map (.act : Use ρ → Rung κ ρ)) = [] := by
  induction uses with
  | nil => rfl
  | cons use uses ih => exact ih

end Ladder

/-! ## Interleaved traces -/

namespace Use

variable {τ ρ : Type*} [DecidableEq τ] [DecidableEq ρ]

/-- The same with a resource of this thread. -/
def of (thread : τ) : Use ρ → Use (τ × ρ)
  | acquire resource => acquire (thread, resource)
  | borrow resource => borrow (thread, resource)
  | release resource => release (thread, resource)

/-- What one thread does. -/
def doneBy (thread : τ) (events : List (τ × Use ρ)) : List (Use ρ) :=
  events.filterMap fun event => if event.1 = thread then some event.2 else none

/-- What all threads do, each with its own resources. -/
def together (events : List (τ × Use ρ)) : List (Use (τ × ρ)) :=
  events.map fun event => event.2.of event.1

/-- What a thread holds. -/
noncomputable def heldBy (thread : τ) (held : Finset (τ × ρ)) : Finset ρ :=
  held.preimage (Prod.mk thread) (Prod.mk_right_injective thread).injOn

omit [DecidableEq τ] [DecidableEq ρ] in
theorem mem_heldBy {thread : τ} {held : Finset (τ × ρ)} {resource : ρ} :
    resource ∈ heldBy thread held ↔ (thread, resource) ∈ held :=
  Finset.mem_preimage

/-- A use that is in order for its thread is in order, and the other threads hold what they held. -/
theorem apply_of {thread : τ} {held : Finset (τ × ρ)} {use : Use ρ} {mine : Finset ρ}
    (applied : apply (heldBy thread held) use = some mine) :
    ∃ after, apply held (use.of thread) = some after ∧ heldBy thread after = mine ∧
      ∀ other, other ≠ thread → heldBy other after = heldBy other held := by
  cases use with
  | acquire resource =>
      rw [apply] at applied
      split at applied
      · cases applied
      · rename_i fresh
        obtain rfl := Option.some.inj applied
        refine ⟨insert (thread, resource) held, ?_, ?_, fun other apart => ?_⟩
        · rw [of, apply, if_neg (by rwa [mem_heldBy] at fresh)]
        · ext found
          simp [mem_heldBy]
        · ext found
          simp [mem_heldBy, apart]
  | borrow resource =>
      rw [apply] at applied
      split at applied
      · rename_i present
        obtain rfl := Option.some.inj applied
        refine ⟨held, ?_, rfl, fun _ _ => rfl⟩
        rw [of, apply, if_pos (mem_heldBy.mp present)]
      · cases applied
  | release resource =>
      rw [apply] at applied
      split at applied
      · rename_i present
        obtain rfl := Option.some.inj applied
        refine ⟨held.erase (thread, resource), ?_, ?_, fun other apart => ?_⟩
        · rw [of, apply, if_pos (mem_heldBy.mp present)]
        · ext found
          simp [mem_heldBy]
        · ext found
          simp [mem_heldBy, apart]
      · cases applied

/-- A use that is in order is in order for its thread. -/
theorem apply_of_eq_some {thread : τ} {held after : Finset (τ × ρ)} {use : Use ρ}
    (applied : apply held (use.of thread) = some after) :
    ∃ mine, apply (heldBy thread held) use = some mine := by
  cases use with
  | acquire resource =>
      rw [of, apply] at applied
      split at applied
      · cases applied
      · rename_i fresh
        exact ⟨_, if_neg (by rwa [mem_heldBy])⟩
  | borrow resource =>
      rw [of, apply] at applied
      split at applied
      · rename_i present
        exact ⟨_, if_pos (mem_heldBy.mpr present)⟩
      · cases applied
  | release resource =>
      rw [of, apply] at applied
      split at applied
      · rename_i present
        exact ⟨_, if_pos (mem_heldBy.mpr present)⟩
      · cases applied

/-- An interleaving is in order exactly if each thread is for itself, and each holds in the end what it
would hold alone. -/
theorem replay_together {events : List (τ × Use ρ)} {held : Finset (τ × ρ)} {left : τ → Finset ρ} :
    (∀ thread, replay (heldBy thread held) (doneBy thread events) = some (left thread)) ↔
      ∃ after, replay held (together events) = some after ∧
        ∀ thread, heldBy thread after = left thread := by
  induction events generalizing held with
  | nil =>
      constructor
      · intro each
        exact ⟨held, rfl, fun thread => Option.some.inj (each thread)⟩
      · rintro ⟨after, replayed, left_eq⟩ thread
        obtain rfl := Option.some.inj replayed
        exact congrArg some (left_eq thread)
  | cons event events ih =>
      obtain ⟨thread, use⟩ := event
      have mine_eq : doneBy thread ((thread, use) :: events) = use :: doneBy thread events := by
        rw [doneBy, List.filterMap_cons, if_pos rfl]
        rfl
      have others_eq {other : τ} (apart : other ≠ thread) :
          doneBy other ((thread, use) :: events) = doneBy other events := by
        rw [doneBy, List.filterMap_cons, if_neg (Ne.symm apart)]
        rfl
      have all_eq : replay held (together ((thread, use) :: events)) =
          (apply held (use.of thread)).bind fun middle => replay middle (together events) := by
        rw [together, List.map_cons, replay, List.foldlM_cons]
        rfl
      rw [all_eq]
      constructor
      · intro each
        have first := each thread
        rw [mine_eq, replay, List.foldlM_cons] at first
        obtain ⟨mine, applied, rest⟩ := Option.bind_eq_some_iff.mp first
        obtain ⟨middle, applied_all, middle_eq, others⟩ := apply_of applied
        rw [applied_all, Option.bind_some, ← ih]
        intro other
        by_cases same : other = thread
        · subst same
          rw [middle_eq]
          exact rest
        · rw [others other same, ← others_eq same]
          exact each other
      · rintro ⟨after, replayed, left_eq⟩ other
        obtain ⟨middle, applied_all, rest⟩ := Option.bind_eq_some_iff.mp replayed
        obtain ⟨mine, applied⟩ := apply_of_eq_some applied_all
        obtain ⟨middle', applied_all', middle_eq, others⟩ := apply_of applied
        obtain rfl := Option.some.inj (applied_all.symm.trans applied_all')
        have later := ih.mpr ⟨after, rest, left_eq⟩ other
        by_cases same : other = thread
        · subst same
          rw [mine_eq, replay, List.foldlM_cons, applied]
          rw [middle_eq] at later
          exact later
        · rw [others_eq same, ← others other same]
          exact later

end Use
