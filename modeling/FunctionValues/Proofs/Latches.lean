import FunctionValues.Proofs.Stages

/-!
# Latches

The latches of a cache and the phases of the threads there. `Storage.Guarded` is the invariant: a
thread holds a latch exactly while one of its phases says so, it is the owner exactly while it
computes, and nothing is stored for an argument between its being missed and its being kept.
`Storage.Guarded.moves` is its step lemma, with one lemma for each stage that touches a latch.
-/

namespace FunctionValues

namespace Phase

/-- Whether the latch of a place is held. -/
def latches (policy : Policy) (place : Nat) (phase : Phase) : Bool :=
  phase.latched?.any (policy.joins place)

/-- Whether the thread is the owner of a place. -/
def owns (policy : Policy) (place : Nat) (phase : Phase) : Bool :=
  phase.owned?.any (policy.joins place)

theorem latched?_of_owned? {phase : Phase} {place : Nat} (owned : phase.owned? = some place) :
    phase.latched? = some place := by
  unfold owned? at owned
  split at owned <;> simp_all [latched?, Stage.latched?]

theorem latches_of_owns {policy : Policy} {place : Nat} {phase : Phase}
    (owns : phase.owns policy place = true) : phase.latches policy place = true := by
  cases owned : phase.owned? with
  | none => simp [Phase.owns, owned] at owns
  | some other =>
      have joined : policy.joins place other = true := by simpa [Phase.owns, owned] using owns
      simp [latches, latched?_of_owned? owned, joined]

theorem latched?_of_missed? {phase : Phase} {key : Value} {place : Nat}
    (missed : phase.missed? = some (key, place)) : phase.latched? = some place := by
  unfold missed? at missed
  split at missed <;> simp_all [latched?, Stage.latched?]

end Phase

namespace Storage

/-- A latch is held, and a place owned, by the threads whose phases say so, and what was missed is
not stored. -/
structure Guarded (storage : Storage) (threads : List (List Phase)) : Prop where
  holder (thread place) :
    (threads.getD thread []).countP (Phase.latches storage.policy place) =
      if (storage.latch place).holder = some thread then 1 else 0
  owner (thread place) :
    (threads.getD thread []).countP (Phase.owns storage.policy place) =
      if (storage.latch place).owner = some thread then 1 else 0
  missing {thread phase key place} (member : phase ∈ threads.getD thread [])
    (missed : phase.missed? = some (key, place)) : storage.find? place key = none

namespace Guarded

variable {storage after : Storage} {threads : List (List Phase)} {thread : Thread}
  {phase next : Phase} {phases rest : List Phase} {place : Nat}

/-- A storage without threads at work whose latches are free is guarded. -/
theorem of_idle (free : ∀ place, storage.latch place = {})
    (idle : ∀ phases ∈ threads, ∀ phase ∈ phases, phase.isFresh = true) :
    storage.Guarded threads := by
  have unlatched : ∀ thread, ∀ phase ∈ threads.getD thread [], phase.latched? = none := by
    intro thread phase member
    have fresh := Phase.isFresh_of_idle idle member
    unfold Phase.isFresh at fresh
    split at fresh <;> simp_all [Phase.latched?, Stage.latched?]
  refine ⟨fun thread place => ?_, fun thread place => ?_, fun {thread phase} _ _ member missed => ?_⟩
  · simpa [free, Phase.latches, List.countP_eq_zero] using fun phase member => by
      simp [unlatched thread phase member]
  · simp only [free, reduceCtorEq, if_false, List.countP_eq_zero]
    intro phase member owns
    have latches := Phase.latches_of_owns owns
    simp [Phase.latches, unlatched thread phase member] at latches
  · have latched := Phase.latched?_of_missed? missed
    rw [unlatched thread phase member] at latched
    cases latched

/-- The step of one thread: what has to hold of its own phases, and that nothing changes for the
others. -/
private theorem update (guarded : storage.Guarded threads) (present : thread < threads.length)
    (policy : after.policy = storage.policy)
    (holder : ∀ place, phases.countP (Phase.latches storage.policy place) =
      if (after.latch place).holder = some thread then 1 else 0)
    (owner : ∀ place, phases.countP (Phase.owns storage.policy place) =
      if (after.latch place).owner = some thread then 1 else 0)
    (missing : ∀ phase ∈ phases, ∀ key place, phase.missed? = some (key, place) →
      after.find? place key = none)
    (others : ∀ other place, other ≠ thread →
      ((after.latch place).holder = some other ↔ (storage.latch place).holder = some other) ∧
        ((after.latch place).owner = some other ↔ (storage.latch place).owner = some other))
    (stored : ∀ other, other ≠ thread → ∀ phase ∈ threads.getD other [], ∀ key place,
      phase.missed? = some (key, place) → after.find? place key = none) :
    after.Guarded (threads.set thread phases) := by
  have self : (threads.set thread phases).getD thread [] = phases := by simp [present]
  have rest : ∀ other, other ≠ thread →
      (threads.set thread phases).getD other [] = threads.getD other [] := by
    intro other different
    simp [Ne.symm different]
  refine ⟨fun other place => ?_, fun other place => ?_, fun {other phase} key place member missed => ?_⟩
  · rw [policy]
    by_cases here : other = thread
    · rw [here, self, holder place]
    · rw [rest other here, guarded.holder other place]
      simp only [(others other place here).1]
  · rw [policy]
    by_cases here : other = thread
    · rw [here, self, owner place]
    · rw [rest other here, guarded.owner other place]
      simp only [(others other place here).2]
  · by_cases here : other = thread
    · rw [here, self] at member
      exact missing phase member key place missed
    · rw [rest other here] at member
      exact stored other here phase member key place missed

/-- A step that touches no latch and no stored result. -/
theorem quiet (guarded : storage.Guarded threads) (present : thread < threads.length)
    (policy : after.policy = storage.policy)
    (latch : ∀ place, after.latch place = storage.latch place)
    (find : ∀ place key, after.find? place key = storage.find? place key)
    (latched : ∀ place, phases.countP (Phase.latches storage.policy place) =
      (threads.getD thread []).countP (Phase.latches storage.policy place))
    (owned : ∀ place, phases.countP (Phase.owns storage.policy place) =
      (threads.getD thread []).countP (Phase.owns storage.policy place))
    (missing : ∀ phase ∈ phases, ∀ key place, phase.missed? = some (key, place) →
      storage.find? place key = none) :
    after.Guarded (threads.set thread phases) := by
  apply guarded.update present policy
  · intro place
    rw [latched, guarded.holder, latch]
  · intro place
    rw [owned, guarded.owner, latch]
  · intro phase member key place missed
    rw [find]
    exact missing phase member key place missed
  · intro other place different
    simp [latch]
  · intro other different phase member key place missed
    rw [find]
    exact guarded.missing member missed

/-- A step between phases that hold no latch. -/
private theorem unlatched (before now : List Phase) (guarded : storage.Guarded threads)
    (present : thread < threads.length) (here : threads.getD thread [] = before ++ rest)
    (alike : storage.Alike after) (free : ∀ phase ∈ before, phase.latched? = none)
    (freed : ∀ phase ∈ now, phase.latched? = none) :
    after.Guarded (threads.set thread (now ++ rest)) := by
  have counts : ∀ {list : List Phase}, (∀ phase ∈ list, phase.latched? = none) → ∀ place,
      list.countP (Phase.latches storage.policy place) = 0 ∧
        list.countP (Phase.owns storage.policy place) = 0 := by
    intro list unlatched place
    simp only [List.countP_eq_zero]
    refine ⟨fun phase member => by simp [Phase.latches, unlatched phase member],
      fun phase member owns => ?_⟩
    have latches := Phase.latches_of_owns owns
    simp [Phase.latches, unlatched phase member] at latches
  apply guarded.quiet present alike.policy alike.latch alike.find
  · intro place
    rw [here, List.countP_append, List.countP_append, (counts free place).1, (counts freed place).1]
  · intro place
    rw [here, List.countP_append, List.countP_append, (counts free place).2, (counts freed place).2]
  · intro phase member key place missed
    rcases List.mem_append.mp member with member | member
    · have latched := Phase.latched?_of_missed? missed
      rw [freed phase member] at latched
      cases latched
    · exact guarded.missing (here ▸ List.mem_append_right before member) missed

/-- The holder of a latch holds it in one phase only. -/
theorem alone (guarded : storage.Guarded threads)
    (here : threads.getD thread [] = phase :: rest) (latched : phase.latched? = some place) :
    ∀ other ∈ rest, other.latches storage.policy place = false := by
  have count := guarded.holder thread place
  have head : phase.latches storage.policy place = true := by simp [Phase.latches, latched]
  rw [here, List.countP_cons_of_pos head] at count
  have none : rest.countP (Phase.latches storage.policy place) = 0 := by
    split at count <;> omega
  simpa [List.countP_eq_zero] using none

/-- The thread in a phase that holds a latch is its holder. -/
theorem holder_eq (guarded : storage.Guarded threads) (member : phase ∈ threads.getD thread [])
    (latched : phase.latched? = some place) :
    (storage.latch place).holder = some thread := by
  have positive : 0 < (threads.getD thread []).countP (Phase.latches storage.policy place) :=
    List.countP_pos_iff.mpr ⟨phase, member, by simp [Phase.latches, latched]⟩
  by_contra different
  rw [guarded.holder thread place, if_neg different] at positive
  exact Nat.lt_irrefl 0 positive

/-- The owner of a latch holds it. -/
theorem holder_of_owner (guarded : storage.Guarded threads)
    (owner : (storage.latch place).owner = some thread) :
    (storage.latch place).holder = some thread := by
  have positive : 0 < (threads.getD thread []).countP (Phase.owns storage.policy place) := by
    rw [guarded.owner thread place, if_pos owner]
    exact Nat.one_pos
  obtain ⟨phase, member, owns⟩ := List.countP_pos_iff.mp positive
  have held : 0 < (threads.getD thread []).countP (Phase.latches storage.policy place) :=
    List.countP_pos_iff.mpr ⟨phase, member, Phase.latches_of_owns owns⟩
  by_contra different
  rw [guarded.holder thread place, if_neg different] at held
  exact Nat.lt_irrefl 0 held

/-- The phases of a thread at a place, after the first of them takes or leaves it there. Where it
takes the latch of the place the others are not at it. -/
private theorem countP_change {policy : Policy} (at? : Phase → Option Nat)
    {taken : Nat → Option Thread} {value : Option Thread}
    (before : ∀ other, (phase :: rest).countP (fun phase => (at? phase).any (policy.joins other)) =
      if taken other = some thread then 1 else 0)
    (alone : ∀ phase ∈ rest, (at? phase).any (policy.joins place) = false)
    (only : ∀ other, at? phase = some other → other = place)
    (now : value = none ∧ at? next = none ∨ value = some thread ∧ at? next = some place)
    (other : Nat) :
    (next :: rest).countP (fun phase => (at? phase).any (policy.joins other)) =
      if (if policy.joins other place then value else taken other) = some thread then 1 else 0 := by
  by_cases joined : policy.joins other place = true
  · have none : rest.countP (fun phase => (at? phase).any (policy.joins other)) = 0 := by
      rw [Policy.joins_congr joined]
      simpa [List.countP_eq_zero] using alone
    rcases now with ⟨free, left⟩ | ⟨here, came⟩
    · simp [free, left, joined, none]
    · simp [here, came, joined, none]
  · have apart : (at? next).any (policy.joins other) = false := by
      rcases now with ⟨-, left⟩ | ⟨-, came⟩
      · simp [left]
      · simp [came, joined]
    have was : (at? phase).any (policy.joins other) = false := by
      cases found : at? phase with
      | none => rfl
      | some place' => simp [only place' found, joined]
    have count := before other
    rw [List.countP_cons_of_neg (by simp [was])] at count
    rw [List.countP_cons_of_neg (by simp [apart]), count, if_neg joined]

/-- A thread that is at a place where it may hold the latch changes that latch. -/
private theorem relatch (guarded : storage.Guarded threads) (present : thread < threads.length)
    (here : threads.getD thread [] = phase :: rest) (known : storage.HasPlace place)
    {change : Latch → Latch}
    (mine : ∀ other, other ≠ thread → (storage.latch place).holder ≠ some other)
    (alone : ∀ other ∈ rest, other.latches storage.policy place = false)
    (latched : ∀ other, phase.latched? = some other → other = place)
    (holder : (change (storage.latch place)).holder = none ∧ next.latched? = none ∨
      (change (storage.latch place)).holder = some thread ∧ next.latched? = some place)
    (owner : (change (storage.latch place)).owner = none ∧ next.owned? = none ∨
      (change (storage.latch place)).owner = some thread ∧ next.owned? = some place)
    (missing : ∀ key place, next.missed? = some (key, place) → storage.find? place key = none) :
    (storage.modifyLatch place change).Guarded (threads.set thread (next :: rest)) := by
  have unowned : ∀ other ∈ rest, other.owns storage.policy place = false := by
    intro other member
    by_contra owns
    have latches := Phase.latches_of_owns (Bool.of_not_eq_false owns)
    rw [alone other member] at latches
    cases latches
  apply guarded.update present (policy_modifyLatch ..)
  · intro other
    rw [storage.latch_modifyLatch other change known, apply_ite Latch.holder]
    exact countP_change Phase.latched? (fun other => here ▸ guarded.holder thread other) alone
      latched holder other
  · intro other
    rw [storage.latch_modifyLatch other change known, apply_ite Latch.owner]
    exact countP_change Phase.owned? (fun other => here ▸ guarded.owner thread other) unowned
      (fun place' owned => latched place' (Phase.latched?_of_owned? owned)) owner other
  · intro other member key place' missed
    rw [find?_modifyLatch]
    rcases List.mem_cons.mp member with rfl | member
    · exact missing key place' missed
    · exact guarded.missing (here ▸ List.mem_cons_of_mem phase member) missed
  · intro other place' different
    rw [storage.latch_modifyLatch place' change known]
    by_cases joined : storage.policy.joins place' place = true
    · have free : (storage.latch place').holder ≠ some other := by
        rw [storage.latch_congr joined]
        exact mine other different
      have unowned : (storage.latch place').owner ≠ some other :=
        fun owned => free (guarded.holder_of_owner owned)
      rw [if_pos joined]
      constructor
      · rcases holder with ⟨none, -⟩ | ⟨some, -⟩ <;> simp_all [Ne.symm different]
      · rcases owner with ⟨none, -⟩ | ⟨some, -⟩ <;> simp_all [Ne.symm different]
    · simp [joined]
  · intro other different phase member key place' missed
    rw [find?_modifyLatch]
    exact guarded.missing member missed

/-! ## The stages that touch a latch -/

section Stages

variable {key : Value}

/-- Nobody but the holder of a latch holds it. -/
private theorem mine (guarded : storage.Guarded threads)
    (here : threads.getD thread [] = phase :: rest) (latched : phase.latched? = some place) :
    ∀ other, other ≠ thread → (storage.latch place).holder ≠ some other := by
  intro other different held
  rw [guarded.holder_eq (here ▸ List.mem_cons_self) latched] at held
  exact different (Option.some.inj held).symm

private theorem lock (guarded : storage.Guarded threads) (present : thread < threads.length)
    (here : threads.getD thread [] = .applying key (.lock place) :: rest)
    (known : storage.HasPlace place) (free : (storage.latch place).holder = none) :
    (storage.modifyLatch place ({ · with holder := some thread })).Guarded
      (threads.set thread (.applying key (.look place) :: rest)) := by
  have unheld : (threads.getD thread []).countP (Phase.latches storage.policy place) = 0 := by
    rw [guarded.holder thread place, if_neg (by simp [free])]
  have unowned : (storage.latch place).owner = none := by
    cases owner : (storage.latch place).owner with
    | none => rfl
    | some other =>
        have held := guarded.holder_of_owner owner
        rw [free] at held
        cases held
  apply guarded.relatch present here known
  · simp [free]
  · intro other member
    rw [here, List.countP_eq_zero] at unheld
    simpa using unheld other (List.mem_cons_of_mem _ member)
  · simp [Phase.latched?, Stage.latched?]
  · exact .inr ⟨rfl, rfl⟩
  · exact .inl ⟨unowned, rfl⟩
  · simp [Phase.missed?]

private theorem start (guarded : storage.Guarded threads) (present : thread < threads.length)
    (here : threads.getD thread [] = .applying key (.start place) :: rest)
    (known : storage.HasPlace place) :
    (storage.modifyLatch place ({ · with owner := some thread })).Guarded
      (threads.set thread (.computing key place :: rest)) := by
  have member : Phase.applying key (.start place) ∈ threads.getD thread [] :=
    here ▸ List.mem_cons_self
  apply guarded.relatch present here known (guarded.mine here rfl) (guarded.alone here rfl)
  · simp [Phase.latched?, Stage.latched?]
  · exact .inr ⟨guarded.holder_eq member rfl, rfl⟩
  · exact .inr ⟨rfl, rfl⟩
  · rintro key place ⟨⟩
    exact guarded.missing member rfl

private theorem settle {outcome : Outcome} (guarded : storage.Guarded threads)
    (present : thread < threads.length)
    (here : threads.getD thread [] = .applying key (.settle place outcome) :: rest)
    (known : storage.HasPlace place) :
    (storage.modifyLatch place ({ · with owner := none })).Guarded
      (threads.set thread (.applying key (.keep place outcome) :: rest)) := by
  have member : Phase.applying key (.settle place outcome) ∈ threads.getD thread [] :=
    here ▸ List.mem_cons_self
  apply guarded.relatch present here known (guarded.mine here rfl) (guarded.alone here rfl)
  · simp [Phase.latched?, Stage.latched?]
  · exact .inr ⟨guarded.holder_eq member rfl, rfl⟩
  · exact .inl ⟨rfl, rfl⟩
  · rintro key place ⟨⟩
    exact guarded.missing member rfl

/-- The holder of a latch that computes nothing is not its owner. -/
private theorem unowned (guarded : storage.Guarded threads)
    (here : threads.getD thread [] = phase :: rest) (latched : phase.latched? = some place)
    (owned : phase.owned? = none) : (storage.latch place).owner = none := by
  cases owner : (storage.latch place).owner with
  | none => rfl
  | some other =>
      have held := guarded.holder_of_owner owner
      rw [guarded.holder_eq (here ▸ List.mem_cons_self) latched] at held
      obtain rfl := Option.some.inj held
      have count := guarded.owner thread place
      rw [here, owner, if_pos rfl, List.countP_cons_of_neg (by simp [Phase.owns, owned])] at count
      obtain ⟨other, member, owns⟩ := List.countP_pos_iff.mp (count ▸ Nat.one_pos)
      have latches := Phase.latches_of_owns owns
      rw [guarded.alone here latched other member] at latches
      cases latches

private theorem unlock {outcome : Outcome} {vacant : Bool} {next : Stage}
    (guarded : storage.Guarded threads) (present : thread < threads.length)
    (here : threads.getD thread [] = .applying key (.unlock place outcome vacant) :: rest)
    (known : storage.HasPlace place)
    (free : (Phase.applying key next).latched? = none) :
    (storage.modifyLatch place ({ · with holder := none })).Guarded
      (threads.set thread (.applying key next :: rest)) := by
  have unowned := guarded.unowned here rfl rfl
  apply guarded.relatch present here known (guarded.mine here rfl) (guarded.alone here rfl)
  · simp [Phase.latched?, Stage.latched?]
  · exact .inl ⟨rfl, free⟩
  · refine .inl ⟨unowned, ?_⟩
    cases owned : (Phase.applying key next).owned? with
    | none => rfl
    | some other =>
        have latched := Phase.latched?_of_owned? owned
        rw [free] at latched
        cases latched
  · intro key' place' missed
    have latched := Phase.latched?_of_missed? missed
    rw [free] at latched
    cases latched

private theorem keep {outcome : Outcome} {result : Result} {vacant : Bool}
    (guarded : storage.Guarded threads) (present : thread < threads.length)
    (here : threads.getD thread [] = .applying key (.keep place outcome) :: rest) :
    (storage.insert place key result).Guarded
      (threads.set thread (.applying key (.unlock place outcome vacant) :: rest)) := by
  have member : Phase.applying key (.keep place outcome) ∈ threads.getD thread [] :=
    here ▸ List.mem_cons_self
  have held : (storage.latch place).holder = some thread := guarded.holder_eq member rfl
  -- What others missed is at places with other latches, since this thread holds this one.
  have apart : ∀ {phase : Phase} {argument other}, phase.missed? = some (argument, other) →
      phase.latches storage.policy place = false →
      (storage.insert place key result).find? other argument = storage.find? other argument := by
    intro phase argument other missed unlatched
    apply find?_insert_of_not_joins
    simpa [Phase.latches, Phase.latched?_of_missed? missed] using unlatched
  apply guarded.update present (policy_insert ..)
  · intro other
    rw [latch_insert, ← guarded.holder thread other, here]
    rfl
  · intro other
    rw [latch_insert, ← guarded.owner thread other, here]
    rfl
  · intro other inside argument place' missed
    rcases List.mem_cons.mp inside with rfl | inside
    · simp [Phase.missed?] at missed
    · rw [apart missed (guarded.alone here rfl other inside)]
      exact guarded.missing (here ▸ List.mem_cons_of_mem _ inside) missed
  · intro other place' different
    simp [latch_insert]
  · intro other different phase inside argument place' missed
    rw [apart missed]
    · exact guarded.missing inside missed
    · have count := guarded.holder other place
      rw [held, if_neg (by simpa using Ne.symm different), List.countP_eq_zero] at count
      simpa using count phase inside

private theorem look {next : Stage} (guarded : storage.Guarded threads)
    (present : thread < threads.length)
    (here : threads.getD thread [] = .applying key (.look place) :: rest)
    (latched : next.latched? = some place) (owned : (Phase.applying key next).owned? = none)
    (missing : ∀ argument other, (Phase.applying key next).missed? = some (argument, other) →
      storage.find? other argument = none) :
    storage.Guarded (threads.set thread (.applying key next :: rest)) := by
  apply guarded.quiet present rfl (fun _ => rfl) (fun _ _ => rfl)
  · intro other
    rw [here]
    have head : (Phase.applying key next).latches storage.policy other =
        (Phase.applying key (.look place)).latches storage.policy other := by
      change next.latched?.any (storage.policy.joins other) = _
      rw [latched]
      rfl
    rw [List.countP_cons, List.countP_cons, head]
  · intro other
    rw [here]
    have head : (Phase.applying key next).owns storage.policy other =
        (Phase.applying key (.look place)).owns storage.policy other := by
      rw [Phase.owns, owned]
      rfl
    rw [List.countP_cons, List.countP_cons, head]
  · intro phase inside argument other missed
    rcases List.mem_cons.mp inside with rfl | inside
    · exact missing argument other missed
    · exact guarded.missing (here ▸ List.mem_cons_of_mem _ inside) missed

private theorem go {retention : Retention} {stage next : Stage} {event : Option Event}
    (guarded : storage.Guarded threads) (present : thread < threads.length)
    (here : threads.getD thread [] = .applying key stage :: rest)
    (known : ∀ place, stage.place? = some place → storage.HasPlace place)
    (moved : storage.advance retention thread key stage = .go after event next) :
    after.Guarded (threads.set thread (.applying key next :: rest)) := by
  cases stage with
  | seek | check _ | enter _ _ | inspect _ _ | clear _ _ | leave _ _ | drop _ _ =>
      obtain ⟨alike, free⟩ := alike_of_go rfl (by simp) moved
      exact guarded.unlatched [_] [_] present here alike
        (by simp [Phase.latched?, Stage.latched?]) (by simpa [Phase.latched?] using free)
  | lock place =>
      simp only [advance, Storage.lock] at moved
      split at moved
      next held => cases moved
      next free =>
        simp only [Move.go.injEq] at moved
        obtain ⟨rfl, -, rfl⟩ := moved
        exact guarded.lock present here (known place rfl) (by simpa using free)
  | look place =>
      simp only [advance, Storage.look] at moved
      split at moved
      next result found =>
        simp only [Move.go.injEq] at moved
        obtain ⟨rfl, -, rfl⟩ := moved
        exact guarded.look present here rfl rfl (by simp [Phase.missed?])
      next missing =>
        simp only [Move.go.injEq] at moved
        obtain ⟨rfl, -, rfl⟩ := moved
        refine guarded.look present here rfl rfl ?_
        rintro argument other ⟨⟩
        exact missing
  | start place => cases moved
  | settle place outcome =>
      simp only [advance, Storage.settle, Move.go.injEq] at moved
      obtain ⟨rfl, -, rfl⟩ := moved
      exact guarded.settle present here (known place rfl)
  | keep place outcome =>
      have unkept : ∀ vacant, storage.Guarded
          (threads.set thread (.applying key (.unlock place outcome vacant) :: rest)) := by
        intro vacant
        apply guarded.quiet present rfl (fun _ => rfl) (fun _ _ => rfl)
        · rw [here]
          exact fun _ => rfl
        · rw [here]
          exact fun _ => rfl
        · intro phase inside argument other missed
          rcases List.mem_cons.mp inside with rfl | inside
          · simp [Phase.missed?] at missed
          · exact guarded.missing (here ▸ List.mem_cons_of_mem _ inside) missed
      simp only [advance, Storage.keep] at moved
      split at moved
      · split at moved <;>
        · simp only [Move.go.injEq] at moved
          obtain ⟨rfl, -, rfl⟩ := moved
          first
          | exact guarded.keep present here
          | exact unkept true
      · simp only [Move.go.injEq] at moved
        obtain ⟨rfl, -, rfl⟩ := moved
        exact unkept true
  | unlock place outcome vacant =>
      simp only [advance, Storage.unlock, Move.go.injEq] at moved
      obtain ⟨rfl, -, rfl⟩ := moved
      refine guarded.unlock present here (known place rfl) ?_
      split <;> rfl

/-- A step of a thread keeps the latches of a cache guarded. -/
theorem moves {retention : Retention} {phases' : List Phase} {marks : List Mark}
    (guarded : storage.Guarded threads)
    (present : threads[thread]? = some phases)
    (known : ∀ phase ∈ phases, ∀ place ∈ phase.references, storage.HasPlace place)
    (moves : Phase.Moves retention thread storage phases marks after phases') :
    after.Guarded (threads.set thread phases') := by
  have inside : thread < threads.length := (List.getElem?_eq_some_iff.mp present).1
  have here : threads.getD thread [] = phases := by simp [present]
  cases moves with
  | stay => exact guarded.unlatched [] [] inside here (.refl _) (by simp) (by simp)
  | apply key =>
      exact guarded.unlatched [] [_] inside here (.refl _) (by simp)
        (by simp [Phase.latched?, Stage.latched?])
  | count =>
      exact guarded.unlatched [] [_] inside here (.refl _) (by simp) (by simp [Phase.latched?])
  | go moved =>
      refine guarded.go inside here (fun place refers => ?_) moved
      exact known _ List.mem_cons_self place (by simp [Phase.references, refers])
  | compute moved =>
      obtain ⟨rfl, rfl⟩ := eq_start_of_compute moved
      exact guarded.start inside here
        (known _ List.mem_cons_self _ (by simp [Phase.references, Stage.place?]))
  | settle outcome =>
      apply guarded.quiet inside rfl (fun _ => rfl) (fun _ _ => rfl)
      · rw [here]
        exact fun _ => rfl
      · rw [here]
        exact fun _ => rfl
      · intro phase inside argument other missed
        rcases List.mem_cons.mp inside with rfl | inside
        · have computing : Phase.computing _ _ ∈ threads.getD thread [] :=
            here ▸ List.mem_cons_self
          exact guarded.missing computing missed
        · exact guarded.missing (here ▸ List.mem_cons_of_mem _ inside) missed
  | finish moved =>
      obtain ⟨place, rfl, dropped⟩ := eq_drop_of_finish moved
      exact guarded.unlatched [_] [] inside here (alike_of_drop dropped)
        (by simp [Phase.latched?, Stage.latched?]) (by simp)
  | tally moved =>
      exact guarded.unlatched [_] [_] inside here (alike_of_tally moved) (by simp [Phase.latched?])
        (by simp [Phase.latched?])
  | counted moved =>
      exact guarded.unlatched [_] [] inside here (.refl _) (by simp [Phase.latched?]) (by simp)

end Stages

end Guarded

end Storage

end FunctionValues
