import FunctionValues.Proofs.Timelines

/-!
# Attached slots

A slot counts the map, if that leads to it, and everyone who holds it. Whoever holds a slot for an
application finds it in the map, unless that very application has taken it out. So when a thread
that has the lock of the map sees a count of two, nobody else holds the slot or can come to hold it,
its latch is free, and the map leads to it from the argument of the thread.
-/

namespace FunctionValues

/-- Under the lock of the map no latch is held. -/
theorem Stage.latched?_of_locksMap (stage : Stage) (locks : stage.locksMap = true) :
    stage.latched? = none := by
  cases stage <;> first | rfl | cases locks

namespace Phase

/-- Whether a phase refers to a place. -/
def holds (place : Nat) (phase : Phase) : Bool :=
  phase.references.contains place

theorem holds_iff {place : Nat} {phase : Phase} :
    phase.holds place = true ↔ place ∈ phase.references := by
  simp [holds]

theorem holds_of_refers {place : Nat} {phase : Phase} (refers : phase.refers place = 1) :
    phase.holds place = true :=
  holds_iff.mpr (List.count_pos_iff.mp (Nat.lt_of_lt_of_eq Nat.one_pos refers.symm))

/-- Whoever has the latch of a place holds it. -/
theorem holds_of_latched? {phase : Phase} {place : Nat} (latched : phase.latched? = some place) :
    phase.holds place = true := by
  cases phase with
  | applying key stage =>
      cases stage <;> simp_all [latched?, Stage.latched?, holds, references, Stage.place?]
  | computing key other => simpa [latched?, holds, references, eq_comm] using latched
  | counting progress => cases latched

theorem refers_of_nodup {phase : Phase} (nodup : phase.references.Nodup) (place : Nat) :
    phase.refers place = if phase.holds place then 1 else 0 := by
  rw [refers, nodup.count]
  simp only [holds_iff]

/-- No phase refers to a place more than once. -/
def Once (threads : List (List Phase)) : Prop :=
  ∀ phases ∈ threads, ∀ phase ∈ phases, phase.references.Nodup

/-- Where no phase refers to a place more than once, those that do are counted. -/
theorem referrers_eq_countP {threads : List (List Phase)} (once : Once threads) (place : Nat) :
    referrers threads place = threads.flatten.countP (holds place) := by
  have all : ∀ phases : List Phase, (∀ phase ∈ phases, phase.references.Nodup) →
      allRefer place phases = phases.countP (holds place) := by
    intro phases nodup
    induction phases with
    | nil => rfl
    | cons phase phases induction =>
        rw [allRefer_cons, List.countP_cons, refers_of_nodup (nodup phase List.mem_cons_self),
          induction fun other member => nodup other (List.mem_cons_of_mem phase member),
          Nat.add_comm]
  induction threads with
  | nil => rfl
  | cons phases threads induction =>
      rw [List.flatten_cons, List.countP_append, ← all phases (once phases List.mem_cons_self),
        ← induction fun other member => once other (List.mem_cons_of_mem phases member)]
      rfl

/-- Nobody else refers to a place that is referred to once. -/
theorem holds_elsewhere {threads : List (List Phase)} {thread other : Thread} {head phase : Phase}
    {rest : List Phase} {place : Nat} (present : threads[thread]? = some (head :: rest))
    (refers : head.refers place = 1) (one : referrers threads place = 1)
    (member : phase ∈ (threads.set thread rest).getD other []) : phase.holds place = false := by
  have shared := referrers_set present rest place
  rw [allRefer_cons] at shared
  have none := refers_le_referrers member place
  have unreferred : phase.refers place = 0 := by omega
  rw [← Bool.not_eq_true, holds_iff]
  exact List.count_eq_zero.mp unreferred

theorem nodup_applying (key : Value) (stage : Stage) : (applying key stage).references.Nodup := by
  simp only [references]
  cases stage.place? <;> simp

/-- A step of counting does not refer to a slot more than once. -/
theorem nodup_of_tally {storage after : Storage} {counting next : Counting}
    (places : ∀ map, storage = .slots map → map.places.Nodup)
    (nodup : (Phase.counting counting).references.Nodup)
    (moved : storage.count counting = .go after next) : (Phase.counting next).references.Nodup := by
  cases counting with
  | collect traversal =>
      cases storage with
      | table results =>
          rw [Storage.count] at moved
          split at moved <;> cases moved
      | slots map =>
          simp only [Storage.count] at moved
          split at moved <;> cases moved
          simpa [references, SlotMap.places] using
            (traversal.perm map.places).nodup_iff.mpr (places map rfl)
  | visit ahead behind count =>
      cases ahead with
      | nil =>
          cases moved
          simpa [references] using nodup
      | cons place ahead =>
          simp only [Storage.count] at moved
          split at moved <;> cases moved
          exact List.perm_middle.nodup_iff.mpr nodup
  | drop held count =>
      cases held with
      | nil => cases moved
      | cons place held =>
          cases storage with
          | table results => cases moved
          | slots map =>
              cases moved
              exact (List.nodup_cons.mp nodup).2

end Phase

/-- Whatever threads do, no phase refers to a place more than once. -/
theorem Cache.once_invariant :
    Cache.Invariant (fun _ _ => True) fun _ threads _ => Phase.Once threads where
  moves := by
    intro cache threads marks added thread phases phases' after sound once _ _ present moves
    have before := once phases (List.mem_of_getElem? present)
    have now : ∀ phase ∈ phases', phase.references.Nodup := by
      cases moves with
      | stay => exact before
      | apply key => exact List.forall_mem_cons.mpr ⟨Phase.nodup_applying .., before⟩
      | count => exact List.forall_mem_cons.mpr ⟨List.nodup_nil, before⟩
      | go moved | settle outcome =>
          exact List.forall_mem_cons.mpr
            ⟨Phase.nodup_applying .., (List.forall_mem_cons.mp before).2⟩
      | compute moved =>
          exact List.forall_mem_cons.mpr
            ⟨List.nodup_singleton _, (List.forall_mem_cons.mp before).2⟩
      | finish moved | counted moved => exact (List.forall_mem_cons.mp before).2
      | tally moved =>
          obtain ⟨head, rest⟩ := List.forall_mem_cons.mp before
          exact List.forall_mem_cons.mpr ⟨Phase.nodup_of_tally
            (fun map here => (sound.traced map here).nodup) head moved, rest⟩
    intro other member
    rcases List.mem_or_eq_of_mem_set member with member | rfl
    · exact once other member
    · exact now
  fresh := by
    intro cache threads policy _ idle phases member phase inside
    have fresh := idle phases member phase inside
    unfold Phase.isFresh at fresh
    split at fresh <;> simp_all [Phase.references, Stage.place?]
  restart _ _ _ idle' := by
    intro phases member phase inside
    rw [idle' phases member] at inside
    cases inside

/-! ## What takes a slot out of the map -/

/-- Whoever has the lock of the map is its holder. -/
theorem SlotMap.Traced.holder_eq {map : SlotMap} {threads : List (List Phase)} {thread : Thread}
    {phase : Phase} (traced : map.Traced threads) (member : phase ∈ threads.getD thread [])
    (locks : phase.locksMap = true) : map.holder = some thread := by
  have positive : 0 < (threads.getD thread []).countP Phase.locksMap :=
    List.countP_pos_iff.mpr ⟨phase, member, locks⟩
  by_contra different
  rw [traced.holder thread, if_neg different] at positive
  exact Nat.lt_irrefl 0 positive

/-- Whoever holds a latch holds the slot. -/
theorem Storage.Guarded.exists_holds {map : SlotMap} {threads : List (List Phase)} {place : Nat}
    {thread : Thread} (guarded : (slots map).Guarded threads)
    (holder : (map.slot place).latch.holder = some thread) :
    ∃ phase ∈ threads.getD thread [], phase.latched? = some place := by
  have count := guarded.holder thread place
  rw [if_pos (show ((slots map).latch place).holder = some thread from holder)] at count
  obtain ⟨phase, member, latches⟩ :=
    List.countP_pos_iff.mp (Nat.lt_of_lt_of_eq Nat.one_pos count.symm)
  obtain ⟨reached, latched, joined⟩ := (Option.any_eq_true _ _).mp latches
  obtain rfl : place = reached := by simpa [Storage.policy, Policy.joins] using joined
  exact ⟨phase, member, latched⟩

/-- The map does not lead to a slot that was removed. -/
theorem SlotMap.not_mem_places_remove {map : SlotMap} {key : Value} {place : Nat}
    (nodup : map.places.Nodup) (leads : map.find? key = some place) :
    place ∉ (map.remove key).places := by
  obtain ⟨front, back, before, removed⟩ := places_remove leads
  rw [before, List.nodup_middle, List.nodup_cons] at nodup
  rw [removed]
  exact nodup.1

/-- Only a thread that clears a slot takes it out of the map. -/
theorem SlotMap.Traced.clears_of_moves {map after : SlotMap} {threads : List (List Phase)}
    {retention : Retention} {thread : Thread} {phases phases' : List Phase} {added : List Mark}
    {place : Nat} (traced : map.Traced threads) (present : threads[thread]? = some phases)
    (moves : Phase.Moves retention thread (.slots map) phases added (.slots after) phases')
    (mapped : place ∈ map.places) (unmapped : place ∉ after.places) :
    ∃ key outcome rest, phases = .applying key (.clear place outcome) :: rest := by
  have of_index : after.index = map.index → False := by
    intro same
    rw [SlotMap.places, same] at unmapped
    exact unmapped mapped
  cases moves with
  | stay | apply key | count | settle outcome | counted moved => exact absurd mapped unmapped
  | @go rest key stage _ event next moved =>
      rcases Storage.index_of_go moved with
        same | ⟨rfl, rfl⟩ | ⟨other, outcome, rfl, empty, rfl⟩
      · exact (of_index same).elim
      · refine absurd ?_ unmapped
        cases found : map.find? key with
        | some number =>
            rw [show (map.obtain key).2 = map.refer number by simp [obtain, found]]
            exact mapped
        | none =>
            rw [SlotMap.places_obtain found]
            exact List.mem_append_left _ mapped
      · have head : Phase.applying key (.clear other outcome) ∈ threads.getD thread [] := by
          simp [present]
        obtain ⟨front, back, before, removed⟩ := SlotMap.places_remove (traced.mapped head rfl)
        rw [before] at mapped
        rw [removed] at unmapped
        have here : place = other := by
          by_contra different
          simp only [List.mem_append, List.mem_cons, different, false_or] at mapped unmapped
          exact unmapped mapped
        exact ⟨key, outcome, rest, by rw [here]⟩
  | compute moved =>
      obtain ⟨rfl, modified⟩ := Storage.eq_start_of_compute moved
      cases modified
      exact (of_index rfl).elim
  | finish moved =>
      obtain ⟨other, rfl, dropped⟩ := Storage.eq_drop_of_finish moved
      cases dropped
      exact (of_index rfl).elim
  | tally moved => exact (of_index (Storage.index_of_tally moved)).elim

/-- An application that comes to its end without finding its slot in the map has cleared it, or did
not find it before. -/
theorem SlotMap.Traced.clears_of_go {map after : SlotMap} {threads : List (List Phase)}
    {retention : Retention} {thread : Thread} {rest : List Phase} {key : Value} {stage next : Stage}
    {event : Option Event} {place : Nat} {outcome : Outcome} (traced : map.Traced threads)
    (present : threads[thread]? = some (.applying key stage :: rest))
    (moved : (Storage.slots map).advance retention thread key stage = .go (.slots after) event next)
    (ends : next = .leave place outcome ∨ next = .drop place outcome)
    (unmapped : place ∉ after.places) :
    stage = .clear place outcome ∧ next = .leave place outcome ∧ map.find? key = some place ∨
      stage = .leave place outcome ∧ place ∉ map.places := by
  have member : Phase.applying key stage ∈ threads.getD thread [] := by simp [present]
  have places : after.index = map.index → map.find? key ≠ some place := by
    intro same found
    rw [SlotMap.places, same] at unmapped
    exact unmapped (SlotMap.find?_mem_places found)
  cases stage with
  | seek =>
      simp only [Storage.advance, Storage.seek] at moved
      split at moved <;> cases moved
      simp at ends
  | check other =>
      simp only [Storage.advance, Storage.check] at moved
      split at moved <;> cases moved
      · obtain ⟨rfl, -⟩ : other = place ∧ _ = outcome := by simpa using ends
        exact absurd (traced.mapped member rfl) (places rfl)
      · simp at ends
  | lock other =>
      simp only [Storage.advance, Storage.lock] at moved
      split at moved <;> cases moved
      simp at ends
  | look other =>
      simp only [Storage.advance, Storage.look] at moved
      split at moved <;> cases moved <;> simp at ends
  | start other | drop other reached => cases moved
  | settle other reached =>
      cases moved
      simp at ends
  | keep other reached =>
      simp only [Storage.advance, Storage.keep] at moved
      split at moved
      · split at moved <;> cases moved <;> simp at ends
      · cases moved
        simp at ends
  | unlock other reached vacant =>
      cases moved
      cases vacant with
      | true => simp at ends
      | false =>
          obtain ⟨rfl, -⟩ : other = place ∧ _ = outcome := by simpa using ends
          exact absurd (traced.mapped member rfl) (places rfl)
  | enter other reached =>
      simp only [Storage.advance, Storage.enter] at moved
      split at moved <;> cases moved
      simp at ends
  | inspect other reached =>
      cases moved
      split at ends
      · simp at ends
      · obtain ⟨rfl, -⟩ : other = place ∧ _ = outcome := by simpa using ends
        exact absurd (traced.mapped member rfl) (places rfl)
  | clear other reached =>
      simp only [Storage.advance, Storage.clear] at moved
      split at moved
      · cases moved
      · split at moved <;> cases moved <;>
          obtain ⟨rfl, rfl⟩ : other = place ∧ reached = outcome := by simpa using ends
        · exact .inl ⟨rfl, rfl, traced.mapped member rfl⟩
        · exact absurd (traced.mapped member rfl) (places rfl)
  | leave other reached =>
      cases moved
      obtain ⟨rfl, rfl⟩ : other = place ∧ reached = outcome := by simpa using ends
      exact .inr ⟨rfl, unmapped⟩

/-- A thread that comes to a later stage of an application was at that application before. -/
theorem Activity.applying_of_next {thread : Thread} {world after : World} {activity : Activity}
    {number : Nat} {key : Value} {next : Stage} {frames : List Frame}
    (stepped : activity.next thread world = .step after ⟨.applying number key next, frames⟩)
    (sought : next ≠ .seek) (unsettled : ∀ place outcome, next ≠ .settle place outcome) :
    ∃ stage, activity = ⟨.applying number key stage, frames⟩ := by
  obtain ⟨focus, outer⟩ := activity
  cases focus with
  | run computation =>
      exfalso
      cases computation with
      | apply callable argument =>
          cases callable with
          | plain identity code => simp [Activity.next, Computation.next] at stepped
          | memoized cache =>
              simp only [Activity.next, Computation.next, Progress.step.injEq, Activity.mk.injEq,
                Focus.applying.injEq] at stepped
              exact sought stepped.2.1.2.2.symm
      | _ => simp [Activity.next, Computation.next] at stepped
  | answer outcome =>
      exfalso
      cases outer with
      | nil => simp [Activity.next] at stepped
      | cons frame outer =>
          cases frame with
          | computing cache argument place =>
              simp only [Activity.next, Outcome.next, Progress.step.injEq, Activity.mk.injEq,
                Focus.applying.injEq] at stepped
              exact unsettled _ _ stepped.2.1.2.2.symm
          | bind following | feed argument =>
              rcases outcome with failure | (value | callable) <;>
                simp [Activity.next, Outcome.next] at stepped
  | applying other argument stage =>
      simp only [Activity.next] at stepped
      split at stepped
      · cases stepped
      · unfold Move.progress at stepped
        split at stepped <;> cases stepped
        exact ⟨stage, rfl⟩
  | counting other progress =>
      simp only [Activity.next] at stepped
      split at stepped
      · cases stepped
      · unfold CountMove.progress at stepped
        split at stepped <;> cases stepped

namespace System

variable {limit number place last : Nat} {system after : System} {thread : Thread} {key : Value}
  {frames : List Frame} {stage next : Stage} {cache : Cache} {map : SlotMap} {line : Nat → System}

/-- A thread at a later stage of an application was there before, or comes there by its own step. -/
theorem Occurs.at_of_applying (occurs : Occurs limit system after)
    (there : after.At thread ⟨.applying number key next, frames⟩) (sought : next ≠ .seek)
    (unsettled : ∀ place outcome, next ≠ .settle place outcome) :
    system.At thread ⟨.applying number key next, frames⟩ ∨
      ∃ stage, system.At thread ⟨.applying number key stage, frames⟩ ∧
        system.step thread = some after := by
  obtain ⟨worker, present, current⟩ := there
  cases occurs with
  | happens happens =>
      cases happens with
      | step other stepped =>
          obtain ⟨⟨focused, pending, outcomes⟩, moved, world, here, steps, rfl⟩ :=
            step_eq_some stepped
          by_cases same : other = thread
          · subst same
            have inside : other < system.workers.length := (List.getElem?_eq_some_iff.mp here).1
            rw [List.getElem?_set_self inside, Option.some.injEq] at present
            subst present
            right
            cases focused with
            | none =>
                cases pending with
                | nil => cases steps
                | cons task pending => cases task <;> cases steps <;> cases current
            | some activity =>
                simp only [Worker.next] at steps
                cases progress : activity.next other system.world with
                | wait => simp [progress] at steps
                | done outcome =>
                    rw [progress] at steps
                    cases steps
                    cases current
                | step world' activity' =>
                    rw [progress] at steps
                    cases steps
                    cases current
                    obtain ⟨stage, rfl⟩ := Activity.applying_of_next progress sought unsettled
                    exact ⟨stage, ⟨_, here, rfl⟩, stepped⟩
          · rw [List.getElem?_set_ne same] at present
            exact .inl ⟨worker, present, current⟩
      | make made => exact .inl ⟨worker, present, current⟩
      | start tasks few done =>
          obtain ⟨_, -, rfl⟩ := List.mem_map.mp (List.mem_of_getElem? present)
          cases current
  | @ask world workers other computation outer pending outcomes asked traversal following here =>
      by_cases same : other = thread
      · subst same
        have inside : other < workers.length := (List.getElem?_eq_some_iff.mp here).1
        rw [List.getElem?_set_self inside, Option.some.injEq] at present
        subst present
        cases current
      · rw [List.getElem?_set_ne same] at present
        exact .inl ⟨worker, present, current⟩

/-- The step of a thread from one stage of an application to another. -/
theorem At.go_of_step (at' : system.At thread ⟨.applying number key stage, frames⟩)
    (stepped : system.step thread = some after)
    (there : after.At thread ⟨.applying number key next, frames⟩) :
    ∃ cache storage event, system.world.caches[number]? = some cache ∧
      cache.storage.advance cache.retention thread key stage = .go storage event next ∧
      after.world.caches[number]? = some { cache with storage } := by
  obtain ⟨cache, found⟩ := at'.cache_of_step (.inl ⟨key, stage, rfl⟩) stepped
  have progress : Activity.next thread system.world ⟨.applying number key stage, frames⟩ =
      (cache.storage.advance cache.retention thread key stage).progress system.world number
        cache.underlying key frames := by
    simp only [Activity.next, found]
  cases moved : cache.storage.advance cache.retention thread key stage with
  | wait =>
      rw [moved] at progress
      rw [at'.step_of_wait progress] at stepped
      cases stepped
  | go storage event following =>
      rw [moved] at progress
      obtain ⟨world, onward⟩ := at'.eq_of_progress stepped progress
      cases there.unique onward
      exact ⟨cache, storage, event, found, moved, by
        simp [world, World.caches_setStorage, found]⟩
  | compute storage place =>
      rw [moved] at progress
      cases there.unique (at'.eq_of_progress stepped progress).2
  | finish storage outcome =>
      rw [moved] at progress
      cases there.unique (at'.eq_of_progress stepped progress).2

/-! ## Applications that have removed their slot -/

/-- The map of a cache leads from an argument to a slot. -/
def Leads (system : System) (number : Nat) (key : Value) (place : Nat) : Prop :=
  ∃ cache map, system.world.caches[number]? = some cache ∧ cache.storage = .slots map ∧
    map.find? key = some place

/-- An application has taken its slot out of the map with its step at one instant, and has only been
coming to its end since then. -/
structure Removal (line : Nat → System) (thread : Thread) (number : Nat) (key : Value) (place : Nat)
    (outcome : Outcome) (frames : List Frame) (instant last : Nat) : Prop where
  before : instant < last
  clears : (line instant).At thread ⟨.applying number key (.clear place outcome), frames⟩
  stepped : (line instant).step thread = some (line (instant + 1))
  leads : (line instant).Leads number key place
  gone (other : Value) : ¬(line (instant + 1)).Leads number other place
  since {later : Nat} (past : instant < later) (within : later ≤ last) :
    (line later).At thread ⟨.applying number key (.leave place outcome), frames⟩ ∨
      (line later).At thread ⟨.applying number key (.drop place outcome), frames⟩

theorem Removal.succ {outcome : Outcome} {instant : Nat}
    (removal : Removal line thread number key place outcome frames instant last)
    (there : (line (last + 1)).At thread ⟨.applying number key (.leave place outcome), frames⟩ ∨
      (line (last + 1)).At thread ⟨.applying number key (.drop place outcome), frames⟩) :
    Removal line thread number key place outcome frames instant (last + 1) where
  before := Nat.lt_succ_of_lt removal.before
  clears := removal.clears
  stepped := removal.stepped
  leads := removal.leads
  gone := removal.gone
  since {later} past within := by
    rcases Nat.lt_or_eq_of_le within with earlier | rfl
    · exact removal.since past (Nat.le_of_lt_succ earlier)
    · exact there

theorem not_leads_of_not_mem (found : system.world.caches[number]? = some cache)
    (slots : cache.storage = .slots map) (unmapped : place ∉ map.places) (other : Value) :
    ¬system.Leads number other place := by
  rintro ⟨cache', map', found', slots', leads⟩
  obtain rfl := Option.some.inj (found.symm.trans found')
  rw [slots, Storage.slots.injEq] at slots'
  exact unmapped (slots' ▸ SlotMap.find?_mem_places leads)

/-- A slot is not taken from an application that is about to end. -/
theorem Occurs.mapped_of_leaving {map' : SlotMap} {cache' : Cache} (sound : system.Sound)
    (occurs : Occurs limit system after) (found : system.world.caches[number]? = some cache)
    (slots : cache.storage = .slots map)
    (found' : after.world.caches[number]? = some cache') (slots' : cache'.storage = .slots map')
    (at' : system.At thread ⟨.applying number key stage, frames⟩)
    (leaving : (Phase.applying key stage).leaving? = some (key, place))
    (mapped : place ∈ map.places) : place ∈ map'.places := by
  by_contra unmapped
  have traced := (sound.present found).traced map slots
  rcases occurs.moves found with
    ⟨other, phases, phases', storage, added, present, kept, -, moves⟩ | ⟨kept, -⟩
  · rw [kept, Option.some.injEq] at found'
    subst found'
    obtain rfl : storage = .slots map' := slots'
    rw [slots] at moves
    obtain ⟨argument, outcome, rest, rfl⟩ := traced.clears_of_moves present moves mapped unmapped
    have clears : Phase.applying argument (.clear place outcome) ∈
        (system.phases number).getD other [] := by simp [present]
    have one := traced.clearing clears rfl
    have held := Phase.holds_of_refers (Phase.refers_of_leaving? leaving)
    rcases Phase.eq_or_mem_elsewhere present at'.mem_phases with same | member
    · cases same
      cases leaving
    · rw [Phase.holds_elsewhere present (Phase.refers_of_clearing? rfl).1 one member] at held
      cases held
  · rw [kept, Option.some.injEq] at found'
    subst found'
    rw [slots, Storage.slots.injEq] at slots'
    exact unmapped (slots' ▸ mapped)

/-- Whoever is past the first stage of an application is at a cache. -/
theorem Sound.cache_of_at (sound : system.Sound)
    (at' : system.At thread ⟨.applying number key stage, frames⟩) (sought : stage ≠ .seek) :
    ∃ cache, system.world.caches[number]? = some cache := by
  cases found : system.world.caches[number]? with
  | some cache => exact ⟨cache, rfl⟩
  | none =>
      have fresh := Phase.isFresh_of_idle (sound.absent found).2 at'.mem_phases
      cases stage <;> simp_all [Phase.isFresh]

/-- A cache with a slot map has had one before. -/
theorem Occurs.slots_before {cache' : Cache} (occurs : Occurs limit system after)
    (found : system.world.caches[number]? = some cache)
    (found' : after.world.caches[number]? = some cache') (slots : cache'.storage = .slots map) :
    ∃ map', cache.storage = .slots map' := by
  obtain ⟨storage, kept, policy⟩ := occurs.caches found
  obtain rfl := Option.some.inj (kept.symm.trans found')
  cases before : cache.storage with
  | table results =>
      rw [before, show storage = .slots map from slots] at policy
      cases policy
  | slots map' => exact ⟨map', rfl⟩

/-- An application that is about to end and does not find its slot in the map has removed it. -/
theorem IsTimeline.removal_of_unmapped {outcome : Outcome} {instant : Nat}
    (timeline : IsTimeline limit line last)
    (idle : ∀ worker ∈ (line 0).workers, worker.current = none) (within : instant ≤ last)
    (at' : (line instant).At thread ⟨.applying number key stage, frames⟩)
    (ends : stage = .leave place outcome ∨ stage = .drop place outcome)
    (found : (line instant).world.caches[number]? = some cache) (slots : cache.storage = .slots map)
    (unmapped : place ∉ map.places) :
    ∃ earlier, Removal line thread number key place outcome frames earlier instant := by
  induction instant generalizing stage cache map with
  | zero =>
      obtain ⟨worker, present, current⟩ := at'
      rw [idle worker (List.mem_of_getElem? present)] at current
      cases current
  | succ instant induction =>
      have earlier := Nat.le_of_succ_le within
      have sound := timeline.sound earlier
      have occurs := timeline.occurs within
      have late : stage ≠ .seek ∧ ∀ place outcome, stage ≠ .settle place outcome := by
        rcases ends with rfl | rfl <;> simp
      have there : (line (instant + 1)).At thread
            ⟨.applying number key (.leave place outcome), frames⟩ ∨
          (line (instant + 1)).At thread ⟨.applying number key (.drop place outcome), frames⟩ := by
        rcases ends with rfl | rfl
        · exact .inl at'
        · exact .inr at'
      rcases occurs.at_of_applying at' late.1 late.2 with same | ⟨stage', before, stepped⟩
      · -- The thread was at its end before, and nobody else can have taken the slot.
        obtain ⟨cache', found'⟩ := sound.cache_of_at same late.1
        obtain ⟨map', slots'⟩ := occurs.slots_before found' found slots
        have leaving : (Phase.applying key stage).leaving? = some (key, place) := by
          rcases ends with rfl | rfl <;> rfl
        have already : place ∉ map'.places := fun mapped =>
          unmapped (occurs.mapped_of_leaving sound found' slots' found slots same leaving mapped)
        obtain ⟨first, removal⟩ := induction earlier same ends found' slots' already
        exact ⟨first, removal.succ there⟩
      · -- The thread comes here by its own step, which clears the slot or comes after that.
        obtain ⟨cache', storage, event, found', moved, kept⟩ := before.go_of_step stepped at'
        obtain ⟨map', slots'⟩ := occurs.slots_before found' found slots
        have traced := (sound.present found').traced map' slots'
        obtain rfl := Option.some.inj (kept.symm.trans found)
        rw [slots', show storage = .slots map from slots] at moved
        rcases traced.clears_of_go before.getElem?_phases moved ends unmapped with
          ⟨rfl, rfl, leads⟩ | ⟨rfl, already⟩
        · refine ⟨instant, Nat.lt_succ_self _, before, stepped,
            ⟨cache', map', found', slots', leads⟩, not_leads_of_not_mem found slots unmapped,
            fun {later} past upto => ?_⟩
          obtain rfl : later = instant + 1 := Nat.le_antisymm upto past
          exact there
        · obtain ⟨first, removal⟩ := induction earlier before (.inl rfl) found' slots' already
          exact ⟨first, removal.succ there⟩

/-! ## Slots in the hands of one thread -/

/-- How many applications and counts hold a slot. -/
def holders (system : System) (number place : Nat) : Nat :=
  (system.phases number).flatten.countP (Phase.holds place)

/-- A thread that has the lock of the map is the only one that holds a slot, to which the map leads.
The latch of the slot is free, and nobody else can come to hold the slot. -/
structure Reserved (system : System) (number : Nat) (map : SlotMap) (thread : Thread) (key : Value)
    (place : Nat) : Prop where
  locked : map.holder = some thread
  leads : map.find? key = some place
  references : (map.slot place).references = 2
  alone : system.holders number place = 1
  others {other : Thread} {phase : Phase} (member : phase ∈ (system.phases number).getD other [])
    (holds : phase.holds place = true) : other = thread
  free : (map.slot place).latch.holder = none
  unobtainable (argument : Value) : (Storage.slots map).seek argument = .wait
  uncollected (traversal : Traversal) : (Storage.slots map).count (.collect traversal) = .wait

section Held

variable (sound : system.Sound)
  (once : system.Holds number fun _ threads _ => Phase.Once threads)
  (found : system.world.caches[number]? = some cache) (slots : cache.storage = .slots map)

include sound once found slots

/-- A slot is referred to by the map, if that leads to it, and once by everyone who holds it. -/
theorem references_eq_holders (place : Nat) :
    (map.slot place).references =
      (if place ∈ map.places then 1 else 0) + system.holders number place := by
  have traced := (sound.present found).traced map slots
  rw [traced.references, traced.nodup.count, Phase.referrers_eq_countP (once cache found), holders]

/-- A thread with the lock of the map that is the only one to refer to its slot is alone with it. -/
theorem reserved_of_referrers
    (at' : system.At thread ⟨.applying number key stage, frames⟩) (locks : stage.locksMap = true)
    (mapped : (Phase.applying key stage).mapped? = some (key, place))
    (one : Phase.referrers (system.phases number) place = 1) :
    system.Reserved number map thread key place := by
  have sound' := sound.present found
  have traced := sound'.traced map slots
  have leads := traced.mapped at'.mem_phases mapped
  have locked := traced.holder_eq at'.mem_phases locks
  have alone : system.holders number place = 1 := by
    rw [holders, ← Phase.referrers_eq_countP (once cache found), one]
  have others : ∀ {other phase}, phase ∈ (system.phases number).getD other [] →
      phase.holds place = true → phase = .applying key stage ∧ other = thread := by
    intro other phase member holds
    have present := at'.getElem?_phases
    rcases Phase.mem_elsewhere_of_mem [_] present member with ⟨same, head⟩ | elsewhere
    · exact ⟨List.mem_singleton.mp head, same.symm⟩
    · rw [Phase.holds_elsewhere present (Phase.refers_of_mapped? mapped) one elsewhere] at holds
      cases holds
  have free : (map.slot place).latch.holder = none := by
    by_contra held
    obtain ⟨other, holder⟩ := Option.ne_none_iff_exists'.mp held
    obtain ⟨phase, member, latched⟩ := (slots ▸ sound'.guarded).exists_holds holder
    obtain ⟨rfl, -⟩ := others member (Phase.holds_of_latched? latched)
    cases (stage.latched?_of_locksMap locks).symm.trans latched
  refine ⟨locked, leads, ?_, alone, fun member holds => (others member holds).2, free, ?_, ?_⟩
  · rw [references_eq_holders sound once found slots, alone,
      if_pos (SlotMap.find?_mem_places leads)]
  · intro argument
    simp [Storage.seek, locked]
  · intro traversal
    simp [Storage.count, locked]

/-- A thread that sees a count of two under the lock of the map is alone with the slot. -/
theorem reserved_of_inspect {outcome : Outcome}
    (at' : system.At thread ⟨.applying number key (.inspect place outcome), frames⟩)
    (two : (map.slot place).references = 2) : system.Reserved number map thread key place := by
  have traced := (sound.present found).traced map slots
  refine reserved_of_referrers sound once found slots at' rfl rfl ?_
  have references := traced.references place
  have mapped := SlotMap.find?_mem_places (traced.mapped at'.mem_phases rfl)
  rw [two, traced.nodup.count, if_pos mapped] at references
  omega

/-- So is a thread that is about to clear the slot. -/
theorem reserved_of_clear {outcome : Outcome}
    (at' : system.At thread ⟨.applying number key (.clear place outcome), frames⟩) :
    system.Reserved number map thread key place :=
  reserved_of_referrers sound once found slots at' rfl rfl
    (((sound.present found).traced map slots).clearing at'.mem_phases rfl)

end Held

/-- A thread that sees a count of two goes on to clear the slot: the map leads to it. -/
theorem Reserved.clears {outcome : Outcome} (reserved : system.Reserved number map thread key place)
    (found : system.world.caches[number]? = some cache) (slots : cache.storage = .slots map)
    (at' : system.At thread ⟨.applying number key (.inspect place outcome), frames⟩) :
    ∃ after, system.step thread = some after ∧
      after.At thread ⟨.applying number key (.clear place outcome), frames⟩ := by
  have moved : cache.storage.advance cache.retention thread key (.inspect place outcome) =
      .go cache.storage none (.clear place outcome) := by
    simp [slots, Storage.advance, Storage.inspect, SlotMap.isUnshared, reserved.references,
      reserved.leads]
  exact at'.go found moved

/-- A thread that is about to clear the slot need not wait, and an empty slot is taken out. -/
theorem Reserved.leaves {outcome : Outcome} (reserved : system.Reserved number map thread key place)
    (nodup : map.places.Nodup) (found : system.world.caches[number]? = some cache)
    (slots : cache.storage = .slots map)
    (at' : system.At thread ⟨.applying number key (.clear place outcome), frames⟩) :
    ∃ after, system.step thread = some after ∧
      after.At thread ⟨.applying number key (.leave place outcome), frames⟩ ∧
      ((map.slot place).content = none → ∀ other, ¬after.Leads number other place) := by
  by_cases empty : (map.slot place).content = none
  · have moved : cache.storage.advance cache.retention thread key (.clear place outcome) =
        .go (.slots (map.remove key)) (some (.slotRemoved (map.remove key).index.length))
          (.leave place outcome) := by
      simp [slots, Storage.advance, Storage.clear, reserved.free, empty]
    obtain ⟨after, stepped, there⟩ := at'.go found moved
    obtain ⟨cache', storage, event, found', moved', kept⟩ := at'.go_of_step stepped there
    obtain rfl := Option.some.inj (found.symm.trans found')
    cases moved.symm.trans moved'
    exact ⟨after, stepped, there, fun _ => not_leads_of_not_mem kept rfl
      (SlotMap.not_mem_places_remove nodup reserved.leads)⟩
  · have moved : cache.storage.advance cache.retention thread key (.clear place outcome) =
        .go cache.storage none (.leave place outcome) := by
      simp [slots, Storage.advance, Storage.clear, reserved.free, empty]
    obtain ⟨after, stepped, there⟩ := at'.go found moved
    exact ⟨after, stepped, there, fun none => absurd none empty⟩

/-! ## At every instant -/

/-- An application holds the slot that the map leads to from its argument, unless it has removed
that slot itself. -/
theorem IsTimeline.leads_or_removal (timeline : IsTimeline limit line last)
    (idle : ∀ worker ∈ (line 0).workers, worker.current = none)
    (found : (line last).world.caches[number]? = some cache) (slots : cache.storage = .slots map)
    (at' : (line last).At thread ⟨.applying number key stage, frames⟩)
    (holds : stage.place? = some place) :
    map.find? key = some place ∨
      ∃ outcome instant, Removal line thread number key place outcome frames instant last := by
  have traced := ((timeline.sound (Nat.le_refl last)).present found).traced map slots
  have removal : ∀ {outcome}, stage = .leave place outcome ∨ stage = .drop place outcome →
      map.find? key = some place ∨
        ∃ outcome instant, Removal line thread number key place outcome frames instant last := by
    intro outcome ends
    have leaving : (Phase.applying key stage).leaving? = some (key, place) := by
      rcases ends with rfl | rfl <;> rfl
    refine (traced.leaving at'.mem_phases leaving).imp id ?_
    rintro ⟨unmapped, -⟩
    exact ⟨outcome, timeline.removal_of_unmapped idle (Nat.le_refl last) at' ends found slots
      unmapped⟩
  cases stage with
  | leave other outcome =>
      obtain rfl : other = place := Option.some.inj holds
      exact removal (.inl rfl)
  | drop other outcome =>
      obtain rfl : other = place := Option.some.inj holds
      exact removal (.inr rfl)
  | _ =>
      refine .inl (traced.mapped at'.mem_phases ?_)
      simp [Phase.mapped?, holds]

/-- A thread that is about to clear a slot stays there until it does. -/
theorem IsTimeline.clear_until_step {outcome : Outcome} {first later : Nat}
    (timeline : IsTimeline limit line last)
    (at' : (line first).At thread ⟨.applying number key (.clear place outcome), frames⟩)
    (ordered : first ≤ later) (within : later ≤ last) :
    (line later).At thread ⟨.applying number key (.clear place outcome), frames⟩ ∨
      ∃ instant, first ≤ instant ∧ instant < later ∧
        (line instant).At thread ⟨.applying number key (.clear place outcome), frames⟩ ∧
        (line instant).step thread = some (line (instant + 1)) := by
  induction ordered with
  | refl => exact .inl at'
  | @step later ordered induction =>
      rcases induction (Nat.le_of_succ_le within) with still | ⟨instant, since, before, past⟩
      · rcases still.of_occurs (by simp) (timeline.occurs within) with stepped | still'
        · exact .inr ⟨later, ordered, Nat.lt_succ_self later, still, stepped⟩
        · exact .inl still'
      · exact .inr ⟨instant, since, Nat.lt_succ_of_lt before, past⟩

/-- What holds of the slots of a cache at an instant of a timeline. -/
structure Attached (line : Nat → System) (last number : Nat) (map : SlotMap) : Prop where
  /-- A slot counts the map, if that leads to it, and everyone who holds it. -/
  references (place : Nat) : (map.slot place).references =
    (if place ∈ map.places then 1 else 0) + (line last).holders number place
  /-- The map leads from an argument that is computed to the slot that is held meanwhile. -/
  computing {thread : Thread} {focus : Focus} {frames : List Frame} {key : Value} {place : Nat}
    (at' : (line last).At thread ⟨focus, frames⟩)
    (inside : .computing number key place ∈ frames) : map.find? key = some place
  /-- The map leads from the argument of an application to the slot that it holds, unless it has
  removed that slot itself. -/
  applying {thread : Thread} {key : Value} {stage : Stage} {frames : List Frame} {place : Nat}
    (at' : (line last).At thread ⟨.applying number key stage, frames⟩)
    (holds : stage.place? = some place) :
    map.find? key = some place ∨
      ∃ outcome instant, Removal line thread number key place outcome frames instant last
  /-- A thread that sees a count of two under the lock of the map is alone with the slot, and finds
  it in the map. -/
  seen {thread : Thread} {key : Value} {place : Nat} {outcome : Outcome} {frames : List Frame}
    (at' : (line last).At thread ⟨.applying number key (.inspect place outcome), frames⟩)
    (two : (map.slot place).references = 2) :
    (line last).Reserved number map thread key place ∧
      ∃ after, (line last).step thread = some after ∧
        after.At thread ⟨.applying number key (.clear place outcome), frames⟩
  /-- It is still alone with the slot when it clears it, for which it need not wait. -/
  clearing {thread : Thread} {key : Value} {place : Nat} {outcome : Outcome} {frames : List Frame}
    (at' : (line last).At thread ⟨.applying number key (.clear place outcome), frames⟩) :
    (line last).Reserved number map thread key place ∧
      ∃ after, (line last).step thread = some after ∧
        after.At thread ⟨.applying number key (.leave place outcome), frames⟩ ∧
        ((map.slot place).content = none → ∀ other, ¬after.Leads number other place)
  /-- So it has been alone with the slot all the time from when it saw the count. -/
  meanwhile {first : Nat} {thread : Thread} {key : Value} {place : Nat} {outcome : Outcome}
    {frames : List Frame} (ordered : first ≤ last)
    (at' : (line first).At thread ⟨.applying number key (.clear place outcome), frames⟩) :
    (line last).Reserved number map thread key place ∨
      ∃ instant, first ≤ instant ∧ instant < last ∧
        (line instant).At thread ⟨.applying number key (.clear place outcome), frames⟩ ∧
        (line instant).step thread = some (line (instant + 1))

/-- At every instant a slot counts the map and those who hold it, and whoever holds a slot for an
application finds it in the map, unless that application has removed it. A thread that sees a count
of two under the lock of the map is alone with the slot from then on until it clears it. -/
theorem IsTimeline.attached (timeline : IsTimeline limit line last)
    (idle : ∀ worker ∈ (line 0).workers, worker.current = none)
    (found : (line last).world.caches[number]? = some cache) (slots : cache.storage = .slots map) :
    Attached line last number map := by
  have within := Nat.le_refl last
  have sound := timeline.sound within
  have once : (line last).Holds number fun _ threads _ => Phase.Once threads :=
    timeline.holds Cache.once_invariant within
  have traced := (sound.present found).traced map slots
  constructor
  case references => exact references_eq_holders sound once found slots
  case computing =>
    rintro thread focus frames key place ⟨worker, present, current⟩ inside
    have member : Phase.computing key place ∈ ((line last).phases number).getD thread [] := by
      simpa [System.phases, present, Worker.phases, current] using
        Activity.mem_phases.mpr (.inr (.inr ⟨key, place, rfl, inside⟩))
    exact traced.mapped member rfl
  case applying =>
    intro thread key stage frames place at' holds
    exact timeline.leads_or_removal idle found slots at' holds
  case seen =>
    intro thread key place outcome frames at' two
    have reserved := reserved_of_inspect sound once found slots at' two
    exact ⟨reserved, reserved.clears found slots at'⟩
  case clearing =>
    intro thread key place outcome frames at'
    have reserved := reserved_of_clear sound once found slots at'
    exact ⟨reserved, reserved.leaves traced.nodup found slots at'⟩
  case meanwhile =>
    intro first thread key place outcome frames ordered at'
    exact (timeline.clear_until_step at' ordered within).imp
      (reserved_of_clear sound once found slots) id

/-- A thread whose run has failed is about to clear its slot, and another waits for the lock of the
map, in a system that a program has come to on some timeline. -/
theorem attached_failing :
    ∃ system line last cache map,
      (callers .perKey failing [[.int 1], [.int 1]]).follow (List.replicate 15 0 ++ [1, 1]) =
        some system ∧
      IsTimeline 2 line last ∧ line 0 = ⟨{}, []⟩ ∧ line last = system ∧ system.step 1 = none ∧
      system.world.caches[0]? = some cache ∧ cache.storage = .slots map ∧
      map.places = [0] ∧ (map.slot 0).references = 2 ∧
      (line last).Reserved 0 map 0 (.int 1) 0 := by
  have followed : ∃ system cache map outcome,
      (callers .perKey failing [[.int 1], [.int 1]]).follow (List.replicate 15 0 ++ [1, 1]) =
        some system ∧
      system.step 1 = none ∧ system.world.caches[0]? = some cache ∧ cache.storage = .slots map ∧
      map.places = [0] ∧ (map.slot 0).references = 2 ∧
      (system.workers[0]?).bind (·.current) = some ⟨.applying 0 (.int 1) (.clear 0 outcome), []⟩ :=
    ⟨_, _, _, _, rfl, rfl, rfl, rfl, rfl, rfl, rfl⟩
  obtain ⟨system, cache, map, outcome, followed, waits, found, slots, places, two, clears⟩ := followed
  have reached : system.Reached 2 :=
    (reached_callers .perKey failing [[.int 1], [.int 1]]).trans (Reaches.of_follow followed)
  obtain ⟨line, last, timeline, began, rfl⟩ := reached.exists_timeline
  have idle : ∀ worker ∈ (line 0).workers, worker.current = none := by
    rw [began]
    exact List.forall_mem_nil _
  have attached := timeline.attached idle found slots
  exact ⟨_, line, last, cache, map, followed, timeline, began, rfl, waits, found, slots, places, two,
    (attached.clearing (Option.bind_eq_some_iff.mp clears)).1⟩

end System

end FunctionValues
