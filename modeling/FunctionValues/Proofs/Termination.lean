import FunctionValues.Proofs.AtMostOnce
import FunctionValues.Proofs.Nesting

/-!
# Recursion through caches ends

Memoized functions may apply each other as they like: every computation that a thread is inside of
holds a lock of its own, and an application that would need one of those again is refused. So where
there are so many locks there are at most so many computations inside of each other, and if each of
them ends as long as the applications ends that it makes, all of them do. It does not matter whether
failures are caught on the way.
-/

namespace FunctionValues

/-- Where each item has a mark and no two have the same one, there are at least as many marks. -/
private theorem length_le_of_apart {Item Label : Type} (marked : Item → Label → Prop)
    {items : List Item} {labels : List Label}
    (each : ∀ item ∈ items, ∃ label ∈ labels, marked item label)
    (apart : items.Pairwise fun item other => ∀ label, marked item label → ¬marked other label) :
    items.length ≤ labels.length := by
  induction items generalizing labels with
  | nil => exact Nat.zero_le _
  | cons item items induction =>
      rw [List.pairwise_cons] at apart
      obtain ⟨label, member, here⟩ := each item List.mem_cons_self
      obtain ⟨before, behind, rfl⟩ := List.append_of_mem member
      have rest : items.length ≤ (before ++ behind).length := by
        refine induction (fun other inside => ?_) apart.2
        obtain ⟨label', member', there⟩ := each other (List.mem_cons_of_mem item inside)
        have different : label' ≠ label := by
          rintro rfl
          exact apart.1 other inside label' here there
        exact ⟨label', by simpa [different] using member', there⟩
      simp only [List.length_append, List.length_cons] at rest ⊢
      omega

/-! ## Locks -/

/-- What a thread holds while it computes: the lock of a cache, or that of one argument. -/
inductive Lock where
  | whole (cache : Nat)
  | single (cache : Nat) (key : Value)

/-- Whether this is the lock that an application needs. -/
def World.locks (world : World) (target : Nat × Value) : Lock → Bool
  | .whole number => world.policy? target.1 == some .global && number == target.1
  | .single number key =>
    world.policy? target.1 == some .perKey && number == target.1 && key.same target.2

/-- Two applications that need one lock are of one cache, and for equal arguments if it has a lock
for each. -/
theorem World.clash_of_locks {world : World} {target other : Nat × Value} {lock : Lock}
    (first : world.locks target lock = true) (second : world.locks other lock = true) :
    target.1 = other.1 ∧
      (world.policy? target.1 = some .global ∨ target.2.same other.2 = true) := by
  cases lock with
  | whole number =>
      simp only [locks, Bool.and_eq_true, beq_iff_eq] at first second
      exact ⟨first.2.symm.trans second.2, .inl first.1⟩
  | single number key =>
      simp only [locks, Bool.and_eq_true, beq_iff_eq] at first second
      exact ⟨first.1.2.symm.trans second.1.2,
        .inr (Value.same_trans (Value.same_symm first.2) second.2)⟩

theorem World.locks_of_comes {thread : Thread} {world after : World} {activity next : Activity}
    {target : Nat × Value} {lock : Lock}
    (comes : Activity.Comes thread world activity after next)
    (locks : world.locks target lock = true) : after.locks target lock = true := by
  cases lock with
  | whole number =>
      simp only [World.locks, Bool.and_eq_true, beq_iff_eq] at locks ⊢
      exact ⟨comes.policy? locks.1, locks.2⟩
  | single number key =>
      simp only [World.locks, Bool.and_eq_true, beq_iff_eq] at locks ⊢
      exact ⟨⟨comes.policy? locks.1.1, locks.1.2⟩, locks.2⟩

theorem Activity.sublist_phases (number : Nat) (activity : Activity) :
    (Frame.phases number activity.frames).Sublist (activity.phases number) := by
  obtain ⟨focus, frames⟩ := activity
  cases focus with
  | run computation | answer outcome => exact List.Sublist.refl _
  | applying cache key stage =>
      rw [Activity.phases_applying]
      split
      · exact List.sublist_cons_self ..
      · exact List.Sublist.refl _
  | counting cache progress =>
      rw [Activity.phases_counting]
      split
      · exact List.sublist_cons_self ..
      · exact List.Sublist.refl _

namespace World.SoundAt

variable {world : World} {activity : Activity}

/-- A cache that a thread computes for exists. -/
theorem exists_of_computation {number : Nat} {key : Value} (sound : world.SoundAt activity)
    (inside : (number, key) ∈ Frame.computations activity.frames) :
    ∃ cache, world.caches[number]? = some cache := by
  cases missing : world.caches[number]? with
  | some cache => exact ⟨cache, rfl⟩
  | none =>
      obtain ⟨phase, member, computed⟩ := List.mem_filterMap.mp (Frame.mem_keys.mpr inside)
      obtain ⟨place, rfl⟩ := Phase.eq_of_computed? computed
      obtain ⟨-, idle⟩ := System.Sound.absent sound missing
      have fresh := idle _ List.mem_cons_self _
        ((Activity.sublist_phases number activity).subset member)
      cases fresh

/-- No two computations that a thread is inside of need the same lock. -/
theorem pairwise_computations (sound : world.SoundAt activity) :
    (Frame.computations activity.frames).Pairwise fun target other => ∀ lock,
      world.locks target lock = true → ¬world.locks other lock = true := by
  rw [List.pairwise_iff_forall_sublist]
  rintro ⟨number, key⟩ ⟨number', other⟩ sublist lock locks locks'
  obtain ⟨same, clash⟩ := World.clash_of_locks locks locks'
  obtain rfl : number = number' := same
  obtain ⟨cache, found⟩ := sound.exists_of_computation (sublist.subset List.mem_cons_self)
  have within : [key, other].Sublist (Frame.keys number activity.frames) := by
    rw [Frame.keys_eq]
    simpa using sublist.filterMap fun target =>
      if target.1 = number then some target.2 else none
  have apart := (sound.present found).pairwise_computed
  rw [List.flatten_singleton] at apart
  have here := apart.sublist (within.trans ((Activity.sublist_phases number activity).filterMap _))
  rw [List.pairwise_pair] at here
  rcases clash with policy | equal
  · obtain ⟨cache', found', policy⟩ := World.policy?_eq_some.mp policy
    rw [found, Option.some.injEq] at found'
    exact here.1 (found' ▸ policy)
  · exact here.2 equal

end World.SoundAt

/-! ## Families of functions -/

/-- Memoized functions with all that they are ever applied to: caches with one lock, by number, and
arguments of caches with a lock for each, by number and argument. -/
structure Family where
  globals : List Nat
  pairs : List (Nat × Value)

namespace Family

/-- All locks that applications of these functions need. -/
def locks (family : Family) : List Lock :=
  family.globals.map .whole ++ family.pairs.map fun pair => .single pair.1 pair.2

/-- Whether an application is of one of these functions. -/
def covers (family : Family) (world : World) (target : Nat × Value) : Bool :=
  family.locks.any (world.locks target)

/-- How many computations of these functions there are inside of each other. -/
def depth (family : Family) (world : World) (frames : List Frame) : Nat :=
  (Frame.computations frames).countP (family.covers world)

variable {family : Family} {world after : World} {activity next : Activity}

theorem length_locks (family : Family) :
    family.locks.length = family.globals.length + family.pairs.length := by
  simp [locks]

theorem exists_cache {number : Nat} {key : Value} (family : Family)
    (covers : family.covers world (number, key) = true) :
    ∃ cache, world.caches[number]? = some cache := by
  obtain ⟨lock, -, locks⟩ := List.any_eq_true.mp covers
  have policy : ∃ policy, world.policy? number = some policy := by
    cases lock with
    | whole other =>
        simp only [World.locks, Bool.and_eq_true, beq_iff_eq] at locks
        exact ⟨_, locks.1⟩
    | single other argument =>
        simp only [World.locks, Bool.and_eq_true, beq_iff_eq] at locks
        exact ⟨_, locks.1.1⟩
  obtain ⟨policy, known⟩ := policy
  obtain ⟨cache, found, -⟩ := World.policy?_eq_some.mp known
  exact ⟨cache, found⟩

theorem covers_of_comes {thread : Thread} {target : Nat × Value}
    (comes : Activity.Comes thread world activity after next)
    (covers : family.covers world target = true) : family.covers after target = true := by
  obtain ⟨lock, member, locks⟩ := List.any_eq_true.mp covers
  exact List.any_eq_true.mpr ⟨lock, member, World.locks_of_comes comes locks⟩

theorem depth_le_of_comes {thread : Thread} (family : Family) (frames : List Frame)
    (comes : Activity.Comes thread world activity after next) :
    family.depth world frames ≤ family.depth after frames :=
  List.countP_mono_left fun _ _ covers => covers_of_comes comes covers

theorem depth_computing {number : Nat} {key : Value} (family : Family) (place : Nat)
    (frames : List Frame) (covers : family.covers world (number, key) = true) :
    family.depth world (.computing number key place :: frames) = family.depth world frames + 1 := by
  simp [depth, covers]

theorem depth_append (family : Family) (world : World) (inner outer : List Frame) :
    family.depth world (inner ++ outer) = family.depth world inner + family.depth world outer := by
  simp [depth]

/-- There are no more computations inside of each other than locks. -/
theorem depth_le (family : Family) (sound : world.SoundAt activity) :
    family.depth world activity.frames ≤ family.locks.length := by
  rw [depth, List.countP_eq_length_filter]
  refine length_le_of_apart (fun target lock => world.locks target lock = true) ?_
    (sound.pairwise_computations.filter _)
  intro target member
  exact List.any_eq_true.mp (List.mem_filter.mp member).2

end Family

/-- A thread comes to the end of what it does, provided that every application of a memoized
function that it makes comes to its end. -/
inductive Activity.Settles : World → Activity → Prop
  | ended (world : World) (outcome : Outcome) : Settles world ⟨.answer outcome, []⟩
  | step {world after : World} {activity next : Activity} (own : activity.applies? = none)
      (stepped : activity.next 0 world = .step after next) (settles : Settles after next) :
      Settles world activity
  | apply {world : World} {number : Nat} {key : Value} {frames : List Frame}
      (settles : ∀ after outcome, world.Ends 0 (.apply (.memoized number) key) after outcome →
        Settles after ⟨.answer outcome, frames⟩) :
      Settles world ⟨.run (.apply (.memoized number) key), frames⟩

/-- Whatever a thread comes to: it applies no memoized functions but those of a family, and every
computation that it starts for one of their caches settles. -/
structure Family.Governs (family : Family) (world : World) (activity : Activity) : Prop where
  covers {after : World} {next : Activity} {target : Nat × Value}
    (comes : Activity.Comes 0 world activity after next)
    (applies : next.applies? = some target) : family.covers after target = true
  settles {after : World} {cache : Cache} {number place : Nat} {key : Value} {frames : List Frame}
    (comes : Activity.Comes 0 world activity after
      ⟨.run (.apply cache.underlying key), .computing number key place :: frames⟩)
    (found : after.caches[number]? = some cache) :
    Activity.Settles after ⟨.run (.apply cache.underlying key), []⟩

namespace Family.Governs

variable {family : Family} {world after : World} {activity next : Activity}

theorem of_comes (governs : family.Governs world activity)
    (comes : Activity.Comes 0 world activity after next) : family.Governs after next :=
  ⟨fun onward => governs.covers (comes.trans onward),
    fun onward => governs.settles (comes.trans onward)⟩

/-- What a family governs inside of frames it governs on its own. -/
theorem of_within {outer : List Frame} (governs : family.Governs world (activity.within outer)) :
    family.Governs world activity := by
  constructor
  · intro after next target comes applies
    exact governs.covers (comes.within outer) ((next.applies?_within outer).trans applies)
  · intro after cache number place key frames comes found
    exact governs.settles (comes.within outer) found

/-- A thread is inside of applications of the family only. -/
theorem covers_applications (governs : family.Governs world activity)
    (before : ∀ target ∈ activity.applications, family.covers world target = true)
    (comes : Activity.Comes 0 world activity after next) :
    ∀ target ∈ next.applications, family.covers after target = true := by
  obtain ⟨steps, proceeded⟩ := comes
  induction steps generalizing world activity with
  | zero =>
      obtain ⟨rfl, rfl⟩ : world = after ∧ activity = next := by
        simpa [Activity.proceed] using proceeded
      exact before
  | succ steps induction =>
      simp only [Activity.proceed] at proceeded
      split at proceeded
      next middle between stepped =>
        have comes : Activity.Comes 0 world activity middle between := .single stepped
        refine induction (governs.of_comes comes) (fun target member => ?_) proceeded
        have covered : target ∈ activity.applies?.toList ++ activity.applications := by
          rcases Activity.applications_of_next stepped with grown | ⟨other, shrunk⟩
          · exact grown ▸ member
          · rw [shrunk]
            exact List.mem_append_right _ (List.mem_cons_of_mem _ member)
        refine covers_of_comes comes ?_
        rcases List.mem_append.mp covered with applies | inside
        · exact governs.covers (.refl ..) (Option.mem_toList.mp applies)
        · exact before target inside
      · cases proceeded
      · cases proceeded

end Family.Governs

/-! ## The end of every application -/

section Ends

variable {family : Family} {world : World} {activity : Activity} {cache : Cache}
  {number place : Nat} {key : Value} {frames : List Frame} {outcome : Outcome}

/-- A thread that has computed an argument comes back with the outcome. -/
theorem World.SoundAt.comes_back
    (sound : world.SoundAt ⟨.answer outcome, .computing number key place :: frames⟩)
    (outer : List Frame) :
    ∃ after, Activity.Comes 0 world ⟨.answer outcome, .computing number key place :: outer⟩ after
      ⟨.answer outcome, outer⟩ := by
  obtain ⟨cache, found⟩ := sound.exists_cache
  cases retains : cache.retention.retains outcome with
  | false =>
      obtain ⟨storage, removals, comes, -⟩ :=
        Activity.comes_of_vain outer found (sound.computing found) retains
      exact ⟨_, comes⟩
  | true =>
      cases outcome with
      | error failure => cases retains
      | ok result =>
          obtain ⟨storage, comes, -⟩ :=
            Activity.comes_of_kept outer found (sound.computing found) retains
          exact ⟨_, comes⟩

/-- An application ends if the computation ends that it starts, if it starts one. -/
theorem World.SoundAt.ends_of_computation
    (sound : world.SoundAt ⟨.run (.apply (.memoized number) key), frames⟩)
    (found : world.caches[number]? = some cache)
    (computation : ∀ middle place, Activity.Comes 0 world
        ⟨.run (.apply (.memoized number) key), []⟩ middle
        ⟨.run (.apply cache.underlying key), [.computing number key place]⟩ →
      ∃ last outcome, middle.Ends 0 (.apply cache.underlying key) last outcome) :
    ∃ after outcome, world.Ends 0 (.apply (.memoized number) key) after outcome := by
  have begun : ∀ frames, Activity.Comes 0 world ⟨.run (.apply (.memoized number) key), frames⟩ world
      ⟨.applying number key .seek, frames⟩ := fun _ => .single rfl
  have seeking := (sound.of_comes (begun frames)).seeking found
  cases blocked : cache.storage.policy.blocks (Frame.keys number frames) key with
  | true => exact ⟨_, _, (begun []).trans (Activity.comes_of_blocked [] found seeking blocked)⟩
  | false =>
      cases stored : cache.storage.stored? key with
      | some result =>
          exact ⟨_, _, (begun []).trans (Activity.comes_of_stored [] found seeking blocked stored)⟩
      | none =>
          obtain ⟨storage, place, comes, -⟩ :=
            Activity.comes_of_missing [] found seeking blocked stored
          have started := (begun []).trans comes
          obtain ⟨last, outcome, ended⟩ := computation _ place started
          have computed := started.trans (ended.within [.computing number key place])
          obtain ⟨after, back⟩ :=
            World.SoundAt.comes_back (sound.of_comes (computed.within frames)) []
          exact ⟨after, outcome, computed.trans back⟩

/-- What settles ends, if the applications end that it makes. -/
theorem Activity.Settles.ends {outer : List Frame} (settles : Settles world activity)
    (sound : world.SoundAt (activity.within outer)) (governs : family.Governs world activity)
    (inner : ∀ {middle : World} {number : Nat} {key : Value} {own : List Frame},
      middle.SoundAt ⟨.run (.apply (.memoized number) key), own ++ outer⟩ →
      family.Governs middle ⟨.run (.apply (.memoized number) key), []⟩ →
      family.depth world outer ≤ family.depth middle outer →
      ∃ after outcome, middle.Ends 0 (.apply (.memoized number) key) after outcome) :
    ∃ after outcome, Comes 0 world activity after ⟨.answer outcome, []⟩ := by
  induction settles with
  | ended world outcome => exact ⟨world, outcome, .refl ..⟩
  | @step world middle activity next own stepped _ induction =>
      have comes : Comes 0 world activity middle next := .single stepped
      obtain ⟨after, outcome, onward⟩ := induction (sound.of_comes (comes.within outer))
        (governs.of_comes comes) fun sound governs deep =>
          inner sound governs (Nat.le_trans (family.depth_le_of_comes outer comes) deep)
      exact ⟨after, outcome, comes.trans onward⟩
  | @apply world number key frames _ induction =>
      have alone : family.Governs world
          (Activity.within frames ⟨.run (.apply (.memoized number) key), []⟩) := governs
      obtain ⟨middle, reached, ends⟩ := inner sound alone.of_within (Nat.le_refl _)
      have comes := ends.within frames
      obtain ⟨after, outcome, onward⟩ := induction middle reached ends
        (sound.of_comes (comes.within outer)) (governs.of_comes comes) fun sound governs deep =>
          inner sound governs (Nat.le_trans (family.depth_le_of_comes outer comes) deep)
      exact ⟨after, outcome, comes.trans onward⟩

end Ends

/-- Every application of a family ends: each computation that it is inside of holds a lock more. -/
theorem Family.Governs.ends {family : Family} {world : World} {number : Nat} {key : Value}
    {frames : List Frame}
    (governs : family.Governs world ⟨.run (.apply (.memoized number) key), []⟩)
    (sound : world.SoundAt ⟨.run (.apply (.memoized number) key), frames⟩) :
    ∃ after outcome, world.Ends 0 (.apply (.memoized number) key) after outcome := by
  have covers : family.covers world (number, key) = true := governs.covers (.refl ..) rfl
  obtain ⟨cache, found⟩ := family.exists_cache covers
  refine sound.ends_of_computation found fun middle place comes => ?_
  obtain ⟨cache', kept, same⟩ : ∃ cache', middle.caches[number]? = some cache' ∧
      cache'.underlying = cache.underlying := by
    obtain ⟨storage, kept, -⟩ := comes.caches found
    exact ⟨_, kept, rfl⟩
  rw [← same] at comes ⊢
  have started : middle.SoundAt (Activity.within (.computing number key place :: frames)
      ⟨.run (.apply cache'.underlying key), []⟩) := sound.of_comes (comes.within frames)
  have governs' : family.Governs middle (Activity.within [.computing number key place]
      ⟨.run (.apply cache'.underlying key), []⟩) := governs.of_comes comes
  have deeper : family.depth world frames <
      family.depth middle (.computing number key place :: frames) := by
    have grown := family.depth_computing place frames (covers_of_comes comes covers)
    have before := family.depth_le_of_comes frames comes
    omega
  refine (governs.settles comes kept).ends started governs'.of_within ?_
  intro last number' key' own sound' governs'' deep
  have room : family.depth last own + family.depth last (.computing number key place :: frames) ≤
      family.locks.length := by
    rw [← depth_append]
    exact family.depth_le sound'
  exact governs''.ends sound'
termination_by family.locks.length - family.depth world frames
decreasing_by
  rw [depth_append]
  omega

/-! ## Programs of a single thread -/

/-- A thread is inside of the applications that it computes for. -/
theorem Activity.mem_applications {activity : Activity} {target : Nat × Value}
    (inside : target ∈ Frame.computations activity.frames) : target ∈ activity.applications := by
  obtain ⟨focus, frames⟩ := activity
  cases focus with
  | applying number key stage => exact List.mem_cons_of_mem _ inside
  | run computation | answer outcome | counting number progress => exact inside

/-- What holds at every step of a run that ends holds of all that its thread comes to. -/
theorem Activity.Comes.holds {holds : World × Activity → Prop} {steps : Nat}
    {world middle after : World} {activity next : Activity} {outcome : Outcome}
    (comes : Comes 0 world activity middle next)
    (ended : proceed 0 steps world activity = some (after, ⟨.answer outcome, []⟩))
    (along : ∀ count ≤ steps, ∀ point ∈ proceed 0 count world activity, holds point) :
    holds (middle, next) := by
  obtain ⟨count, passed⟩ := comes
  obtain ⟨rest, total, -⟩ := proceed_of_passed passed ended
  exact along count (by omega) (middle, next) passed

namespace System

variable {system : System} {number : Nat} {key : Value} {frames : List Frame} {family : Family}

/-- In a program of a single thread, whatever it has stored: a function of a family is applied. Its
functions apply no others, and each computation for one of them ends as long as the applications end
that it makes; failures may be caught on the way. Then the application comes back, with a result or
a failure, and at every moment until then there are no more computations of the family inside of
each other than caches with one lock and arguments of caches with a lock for each. -/
theorem recursion_ends (reached : system.Reached 1)
    (at' : system.At 0 ⟨.run (.apply (.memoized number) key), frames⟩)
    (governs : family.Governs system.world ⟨.run (.apply (.memoized number) key), []⟩) :
    (∃ steps after outcome, system.follow (List.replicate steps 0) = some after ∧
      after.At 0 ⟨.answer outcome, frames⟩) ∧
    ∀ after activity, Activity.Comes 0 system.world ⟨.run (.apply (.memoized number) key), []⟩ after
        activity →
      (Frame.computations activity.frames).length + family.depth after frames ≤
        family.globals.length + family.pairs.length := by
  have sound := at'.soundAt reached
  constructor
  · obtain ⟨world, outcome, ends⟩ := governs.ends sound
    obtain ⟨steps, after, followed, -, back⟩ := at'.follow (ends.within frames)
    exact ⟨steps, after, outcome, followed, back⟩
  · intro after activity comes
    have covers := governs.covers_applications (fun _ member => nomatch member) comes
    have all : family.depth after activity.frames = (Frame.computations activity.frames).length :=
      List.countP_eq_length.mpr fun target inside =>
        covers target (Activity.mem_applications inside)
    have bound := family.depth_le (sound.of_comes (comes.within frames))
    rwa [Activity.frames_within, Family.depth_append, all, Family.length_locks] at bound

/-- Code that applies the memoized function to the other of two numbers, which in turn applies it to
this one, and catches the failure. -/
def circling : Code
  | .int number => (Computation.apply (.memoized 0) (.int (1 - number))).attempt
  | _ => .value .unit

private theorem settles_circling (world : World) (key : Value) :
    Activity.Settles world ⟨.run (.apply (.plain 0 circling) key), []⟩ := by
  refine .step rfl rfl ?_
  have plain : Activity.Settles world ⟨.run (.value .unit), []⟩ :=
    .step rfl rfl (.ended world (.ok (.value .unit)))
  cases key with
  | int number =>
      refine .step rfl rfl (.apply fun after outcome _ => ?_)
      rcases outcome with failure | (value | callable)
      · exact .step rfl rfl (.step rfl rfl (.ended ..))
      · exact .step rfl rfl (.step rfl rfl (.ended ..))
      · exact .step rfl rfl (.ended ..)
  | _ => exact plain

/-- The two arguments of the circle. -/
def circle : Family where
  globals := []
  pairs := [(0, .int 0), (0, .int 1)]

/-- A function that applies itself in a circle ends: the cache refuses to go round a second time. -/
theorem recursion_ends_circling :
    ∃ system, (callers .perKey circling [[.int 1]]).follow [0] = some system ∧
      (∃ steps after outcome, system.follow (List.replicate steps 0) = some after ∧
        after.At 0 ⟨.answer outcome, []⟩) ∧
      ∀ after activity, Activity.Comes 0 system.world ⟨.run (.apply (.memoized 0) (.int 1)), []⟩
          after activity →
        (Frame.computations activity.frames).length ≤ 2 := by
  have followed : ∃ system last outcome,
      (callers .perKey circling [[.int 1]]).follow [0] = some system ∧
      (system.workers[0]?).bind (·.current) = some ⟨.run (.apply (.memoized 0) (.int 1)), []⟩ ∧
      system.world = (callers .perKey circling [[.int 1]]).world ∧
      Activity.proceed 0 34 system.world ⟨.run (.apply (.memoized 0) (.int 1)), []⟩ =
        some (last, ⟨.answer outcome, []⟩) :=
    ⟨_, _, _, rfl, rfl, rfl, rfl⟩
  obtain ⟨system, last, outcome, followed, begun, world, ended⟩ := followed
  have reached : system.Reached 1 :=
    (reached_callers .perKey circling [[.int 1]]).trans (Reaches.of_follow followed)
  have along : ∀ count ≤ 34, ∀ point ∈ Activity.proceed 0 count system.world
      ⟨.run (.apply (.memoized 0) (.int 1)), []⟩,
      (∀ target ∈ point.2.applies?, circle.covers point.1 target = true) ∧
        ∀ target ∈ Frame.computations point.2.frames, target.1 = 0 := by
    rw [world]
    decide
  have made : system.world.caches[0]? =
      some ⟨.plain 0 circling, .all, .empty .perKey⟩ := by
    rw [world]
    rfl
  have governs : circle.Governs system.world ⟨.run (.apply (.memoized 0) (.int 1)), []⟩ := by
    constructor
    · intro after next target comes applies
      exact (comes.holds ended along).1 target applies
    · intro after cache number place key frames comes found
      obtain rfl : number = 0 :=
        (comes.holds ended along).2 (number, key) List.mem_cons_self
      obtain ⟨storage, kept, -⟩ := comes.caches made
      obtain rfl := Option.some.inj (found.symm.trans kept)
      exact settles_circling after key
  obtain ⟨ends, nested⟩ := recursion_ends reached (Option.bind_eq_some_iff.mp begun) governs
  exact ⟨system, followed, ends, nested⟩

end System

end FunctionValues
