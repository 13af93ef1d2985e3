import FunctionValues.Proofs.Episodes

/-!
# The log as the books of the caches

What the log of a program of a single thread says of its caches. Between applications every miss has
started a run, and every run was stored, was not retained, or failed, but for those that are going on.
In any program a cache has as many results as were reported as stored, and one with a single lock
reported how many it had each time.
-/

namespace FunctionValues

/-! ## Misses, runs and what became of them -/

namespace Event

/-- Whether an event is a miss. -/
def isMiss : Event → Bool
  | miss _ => true
  | _ => false

/-- Whether an event says that a result was stored. -/
def isStored : Event → Bool
  | stored _ => true
  | _ => false

/-- Whether an event says that a result was not retained. -/
def isNotRetained : Event → Bool
  | notRetained => true
  | _ => false

end Event

namespace Entry

/-- Whether an entry is an event of some sort in an application at a cache. -/
def isEvent (number : Nat) (sort : Event → Bool) : Entry → Bool
  | event cache (some _) what => cache == number && sort what
  | _ => false

/-- Whether an entry says that the function behind a cache started to run. -/
def isStart (number : Nat) : Entry → Bool
  | started cache _ => cache == number
  | _ => false

/-- Whether an entry says that a run of the function behind a cache failed. -/
def isFailure (number : Nat) : Entry → Bool
  | ended cache _ (.error _) => cache == number
  | _ => false

end Entry

/-- Each miss has started a run, and each run was stored, was not retained or failed, but for so many
that are going on. -/
structure Balanced (number : Nat) (entries : List Entry) (running : Nat) : Prop where
  misses : entries.countP (Entry.isEvent number Event.isMiss) =
    entries.countP (Entry.isStart number)
  starts : entries.countP (Entry.isStart number) =
    entries.countP (Entry.isEvent number Event.isStored) +
      entries.countP (Entry.isEvent number Event.isNotRetained) +
      entries.countP (Entry.isFailure number) + running

namespace Balanced

variable {number : Nat} {first second : List Entry} {running more : Nat}

theorem nil (number : Nat) : Balanced number [] 0 :=
  ⟨rfl, rfl⟩

theorem append (later : Balanced number first running) (earlier : Balanced number second more) :
    Balanced number (first ++ second) (running + more) := by
  obtain ⟨misses, starts⟩ := later
  obtain ⟨misses', starts'⟩ := earlier
  constructor
  · rw [List.countP_append, List.countP_append, misses, misses']
  · simp only [List.countP_append]
    omega

/-- A run that has begun is going on, whatever whole episodes are inside of it. -/
theorem begun {other : Nat} {key : Value} {policy : Policy} {body : List Entry}
    (inside : Balanced number body 0) :
    Balanced number (body ++ [.started other key, .event other (some key) (.miss policy)])
      (if other = number then 1 else 0) := by
  have alone : Balanced number [.started other key, .event other (some key) (.miss policy)]
      (if other = number then 1 else 0) := by
    by_cases here : other = number
    · constructor <;> simp [Entry.isEvent, Entry.isStart, Entry.isFailure, Event.isMiss,
        Event.isStored, Event.isNotRetained, here]
    · constructor <;> simp [Entry.isEvent, Entry.isStart, Entry.isFailure, here]
  have running := inside.append alone
  rwa [Nat.zero_add] at running

/-- A run that has ended is not going on any more. -/
theorem ended {other : Nat} {key : Value} {policy : Policy} {retention : Retention}
    {outcome : Outcome} {closing : List Event} {entries : List Entry}
    (closes : outcome.Closes policy retention closing)
    (balanced : Balanced number entries (if other = number then 1 else 0)) :
    Balanced number (closing.map (.event other (some key)) ++ .ended other key outcome :: entries)
      0 := by
  obtain ⟨misses, starts⟩ := balanced
  cases closes with
  | stored keeps count =>
      by_cases here : other = number
      · constructor
        · simp_all [Entry.isEvent, Entry.isStart, Event.isMiss]
        · simp_all [Entry.isEvent, Entry.isStart, Entry.isFailure, Event.isStored,
            Event.isNotRetained]
          omega
      · constructor <;> simp_all [Entry.isEvent, Entry.isStart, Entry.isFailure]
  | vain vain slots =>
      by_cases here : other = number
      · constructor
        · cases policy <;> cases outcome <;> simp_all [Entry.isEvent, Entry.isStart, Event.isMiss,
            Policy.removal, Outcome.verdict]
        · cases policy <;> cases outcome <;>
          · simp_all [Entry.isEvent, Entry.isStart, Entry.isFailure, Event.isStored,
              Event.isNotRetained, Policy.removal, Outcome.verdict]
            omega
      · cases policy <;> cases outcome <;> constructor <;> simp_all [Entry.isEvent, Entry.isStart,
          Entry.isFailure, Policy.removal, Outcome.verdict]

end Balanced

mutual

/-- In an episode every run has ended. -/
theorem Episode.balanced {rules : Nat → Option (Policy × Retention)} (number : Nat) :
    ∀ {other key outcome entries}, Episode rules other key outcome entries →
      Balanced number entries 0
  | _, _, _, _, .hit rule result => by
      constructor <;> simp [Entry.isEvent, Entry.isStart, Entry.isFailure, Event.isMiss,
        Event.isStored, Event.isNotRetained]
  | _, _, _, _, .rejected rule => by
      constructor <;> simp [Entry.isEvent, Entry.isStart, Entry.isFailure, Event.isMiss,
        Event.isStored, Event.isNotRetained]
  | _, _, _, _, .computed rule inside closes => .ended closes (inside.balanced number).begun

theorem Episodes.balanced {rules : Nat → Option (Policy × Retention)} (number : Nat) :
    ∀ {entries}, Episodes rules entries → Balanced number entries 0
  | _, .none => .nil number
  | _, .more episode before => (episode.balanced number).append (before.balanced number)

end

/-- Inside of frames the runs that are going on are those of the frames. -/
theorem Frame.Opens.balanced {rules : Nat → Option (Policy × Retention)} {frames : List Frame}
    {entries : List Entry} (opens : Frame.Opens rules [] frames entries) (number : Nat) :
    Balanced number entries (Frame.keys number frames).length := by
  induction opens with
  | closed episodes =>
      rw [List.append_nil]
      exact episodes.balanced number
  | bind outside induction | feed outside induction => exact induction
  | @computing other key policy retention frames body entries place rule inside outside induction =>
      have running : Balanced number
          (body ++ [.started other key, .event other (some key) (.miss policy)] ++ entries) _ :=
        (inside.balanced number).begun.append induction
      by_cases here : other = number
      · simpa [here, Frame.keys, Frame.phases, Phase.computed?, Nat.add_comm] using running
      · simpa [here, Frame.keys, Frame.phases] using running

/-- What only applications leave can be counted in what they leave. -/
theorem World.countP_traffic (world : World) {test : Entry → Bool}
    (left : ∀ entry, test entry = true → entry.isTraffic = true) :
    world.traffic.countP test = world.log.countP test := by
  rw [World.traffic, List.countP_filter]
  refine List.countP_congr fun entry _ => ?_
  rw [Bool.and_eq_true]
  exact ⟨And.left, fun holds => ⟨holds, left entry holds⟩⟩

/-! ## Stored results -/

/-- What an entry reports of a cache where it stored a result. -/
def Entry.report? (number : Nat) : Entry → Option (Option Nat)
  | event cache (some _) (.stored entries) => if cache = number then some entries else none
  | _ => none

/-- What was reported of a cache when it stored results, the latest first. -/
def World.reports (world : World) (number : Nat) : List (Option Nat) :=
  world.log.filterMap (Entry.report? number)

theorem World.length_reports (world : World) (number : Nat) :
    (world.reports number).length = world.log.countP (Entry.isEvent number Event.isStored) := by
  rw [World.reports, List.length_filterMap_eq_countP]
  refine List.countP_congr fun entry _ => ?_
  cases entry with
  | event cache key event =>
      cases key <;> cases event <;> simp [Entry.report?, Entry.isEvent, Event.isStored]
  | _ => simp [Entry.report?, Entry.isEvent]

/-- A storage holds as many results as were reported, and a table was reported to hold one more each
time. -/
def Storage.Told (storage : Storage) (reports : List (Option Nat)) : Prop :=
  reports.length = storage.size ∧
    (storage.policy = .global → reports.reverse = (List.range' 1 storage.size).map some)

namespace Storage.Told

variable {storage after : Storage} {reports : List (Option Nat)}

theorem congr (told : storage.Told reports) (policy : after.policy = storage.policy)
    (size : after.size = storage.size) : after.Told reports := by
  rw [Storage.Told, policy, size]
  exact told

/-- A result that is stored is reported. -/
theorem store (told : storage.Told reports) (policy : after.policy = storage.policy)
    (size : after.size = storage.size + 1) : after.Told (after.reported :: reports) := by
  obtain ⟨length, ordered⟩ := told
  refine ⟨by rw [List.length_cons, length, size], fun global => ?_⟩
  have reported : after.reported = some after.size := by
    cases after with
    | table results => rfl
    | slots map => cases global
  rw [List.reverse_cons, ordered (policy ▸ global), reported, size, List.range'_concat]
  simp [Nat.add_comm]

end Storage.Told

/-- The books of a cache are right, and there are none where there is no cache. -/
def World.Told (world : World) (number : Nat) : Prop :=
  match world.caches[number]? with
  | some cache => cache.storage.Told (world.reports number)
  | none => world.reports number = []

namespace World

variable {world after : World} {number : Nat} {cache : Cache}

theorem told_of_some (found : world.caches[number]? = some cache) :
    world.Told number ↔ cache.storage.Told (world.reports number) := by
  rw [World.Told, found]

theorem Told.congr (told : world.Told number)
    (caches : after.caches[number]? = world.caches[number]?)
    (reports : after.reports number = world.reports number) : after.Told number := by
  rw [World.Told, caches, reports]
  exact told

theorem reports_recordEvent (world : World) (other number : Nat) (key : Value)
    {event : Option Event} (unstored : ∀ entries, event ≠ some (.stored entries)) :
    (world.recordEvent other key event).reports number = world.reports number := by
  cases event with
  | none => rfl
  | some event =>
      cases event with
      | stored entries => exact absurd rfl (unstored entries)
      | _ => rfl

/-- What happens to another cache leaves the books as they are. -/
theorem Told.setStorage_of_ne {other : Nat} (told : world.Told number) (different : other ≠ number)
    (storage : Storage) : (world.setStorage other storage).Told number :=
  told.congr (by rw [caches_setStorage, if_neg different]) rfl

theorem Told.recordEvent_of_ne {other : Nat} (told : world.Told number)
    (different : other ≠ number) (key : Value) (event : Option Event) :
    (world.recordEvent other key event).Told number := by
  refine told.congr (by rw [caches_recordEvent]) ?_
  cases event with
  | none => rfl
  | some event =>
      have unreported : Entry.report? number (.event other (some key) event) = none := by
        cases event <;> simp [Entry.report?, different]
      exact List.filterMap_cons_none unreported

/-- A storage that has as many results as before leaves the books as they are. -/
theorem Told.setStorage {storage : Storage} (told : world.Told number)
    (found : world.caches[number]? = some cache) (policy : storage.policy = cache.storage.policy)
    (size : storage.size = cache.storage.size) : (world.setStorage number storage).Told number := by
  have kept : (world.setStorage number storage).caches[number]? =
      some { cache with storage := storage } := by
    rw [caches_setStorage, if_pos rfl, found]
    rfl
  rw [told_of_some kept]
  exact ((told_of_some found).mp told).congr policy size

/-- A result that is stored is reported in the books. -/
theorem Told.store {storage : Storage} {key : Value} (told : world.Told number)
    (found : world.caches[number]? = some cache) (policy : storage.policy = cache.storage.policy)
    (size : storage.size = cache.storage.size + 1) :
    ((world.setStorage number storage).recordEvent number key
      (some (.stored storage.reported))).Told number := by
  have kept : ((world.setStorage number storage).recordEvent number key
      (some (.stored storage.reported))).caches[number]? = some { cache with storage := storage } := by
    rw [caches_recordEvent, caches_setStorage, if_pos rfl, found]
    rfl
  have reported : ((world.setStorage number storage).recordEvent number key
      (some (.stored storage.reported))).reports number =
        storage.reported :: world.reports number := by
    exact List.filterMap_cons_some (by simp [Entry.report?])
  rw [told_of_some kept, reported]
  exact ((told_of_some found).mp told).store policy size

end World

/-- An application stores a result with a report, or leaves as many as there are. -/
theorem Cache.Sound.reported_of_go {cache : Cache} {threads : List (List Phase)} {marks : List Mark}
    {thread : Thread} {key : Value} {stage next : Stage} {storage : Storage} {event : Option Event}
    (sound : cache.Sound threads marks)
    (member : Phase.applying key stage ∈ threads.getD thread [])
    (moved : cache.storage.advance cache.retention thread key stage = .go storage event next) :
    (event = some (.stored storage.reported) ∧ storage.size = cache.storage.size + 1) ∨
      (∀ entries, event ≠ some (.stored entries)) ∧ storage.size = cache.storage.size := by
  by_cases stored : ∃ entries, event = some (.stored entries)
  · obtain ⟨entries, rfl⟩ := stored
    cases Storage.goes_of_go moved with
    | stored place keeps => exact .inl ⟨rfl, sound.size_insert member rfl⟩
  · rw [not_exists] at stored
    refine .inr ⟨stored, ?_⟩
    by_cases keeps : ∃ place outcome, stage = .keep place outcome
    · obtain ⟨place, outcome, rfl⟩ := keeps
      cases Storage.goes_of_go moved with
      | stored => exact absurd rfl (stored _)
      | notRetained | failed | passed => rfl
    · push Not at keeps
      exact (sound.agrees_of_go member keeps moved).size

namespace World.Told

variable {world after : World} {number other : Nat} {cache : Cache} {frames : List Frame}
  {next : Activity}

/-- What an application does at another cache leaves the books as they are. -/
theorem progress_of_ne {move : Move} {underlying : Callable} {key : Value}
    (told : world.Told number) (different : other ≠ number)
    (stepped : move.progress world other underlying key frames = .step after next) :
    after.Told number := by
  cases move with
  | wait => cases stepped
  | go storage event stage =>
      cases stepped
      exact (told.setStorage_of_ne different storage).recordEvent_of_ne different key event
  | compute storage place =>
      cases stepped
      exact (told.setStorage_of_ne different storage).congr rfl rfl
  | finish storage outcome =>
      cases stepped
      exact told.setStorage_of_ne different storage

/-- What an application does at the cache itself, and what it reports of it, agree. -/
theorem progress_advance {threads : List (List Phase)} {marks : List Mark} {thread : Thread}
    {key : Value} {stage : Stage} (told : world.Told number)
    (found : world.caches[number]? = some cache) (sound : cache.Sound threads marks)
    (member : Phase.applying key stage ∈ threads.getD thread [])
    (stepped : (cache.storage.advance cache.retention thread key stage).progress world number
      cache.underlying key frames = .step after next) : after.Told number := by
  cases moved : cache.storage.advance cache.retention thread key stage with
  | wait => simp [moved, Move.progress] at stepped
  | go storage event following =>
      rw [moved] at stepped
      cases stepped
      have policy := Storage.policy_of_go moved
      rcases sound.reported_of_go member moved with ⟨rfl, size⟩ | ⟨unstored, size⟩
      · exact told.store found policy size
      · refine (told.setStorage found policy size).congr ?_ ?_
        · rw [World.caches_recordEvent]
        · exact World.reports_recordEvent _ _ _ _ unstored
  | compute storage place =>
      rw [moved] at stepped
      cases stepped
      obtain ⟨-, rfl⟩ := Storage.eq_start_of_compute moved
      exact (told.setStorage found (Storage.policy_modifyLatch ..)
        (Storage.Agrees.of_modifyLatch ..).size).congr rfl rfl
  | finish storage outcome =>
      rw [moved] at stepped
      cases stepped
      obtain ⟨place, rfl, dropped⟩ := Storage.eq_drop_of_finish moved
      exact told.setStorage found (Storage.alike_of_drop dropped).policy
        (Storage.Agrees.of_drop dropped).size

/-- Counting the results of a cache leaves the books of every cache as they are. -/
theorem progress_count {counting : Counting} (told : world.Told number)
    (found : world.caches[other]? = some cache)
    (stepped : (cache.storage.count counting).progress world other frames = .step after next) :
    after.Told number := by
  cases moved : cache.storage.count counting with
  | wait => simp [moved, CountMove.progress] at stepped
  | go storage following =>
      rw [moved] at stepped
      cases stepped
      by_cases here : other = number
      · subst here
        exact told.setStorage found (Storage.alike_of_tally moved).policy
          (Storage.Agrees.of_tally moved).size
      · exact told.setStorage_of_ne here storage
  | finish count =>
      rw [moved] at stepped
      cases stepped
      exact told

end World.Told

/-- A step of a thread keeps the books right. -/
theorem Activity.told_of_next {thread : Thread} {world after : World} {activity next : Activity}
    {number : Nat} (told : world.Told number)
    (sound : ∀ {key stage cache}, activity.focus = .applying number key stage →
      world.caches[number]? = some cache → ∃ threads marks, cache.Sound threads marks ∧
        Phase.applying key stage ∈ threads.getD thread [])
    (stepped : activity.next thread world = .step after next) : after.Told number := by
  obtain ⟨focus, frames⟩ := activity
  cases focus with
  | run computation =>
      cases stepped
      refine told.congr (congrArg (·[number]?) (Computation.caches_next ..)) ?_
      cases computation with
      | apply callable argument => cases callable <;> rfl
      | _ => rfl
  | answer outcome =>
      cases frames with
      | nil => cases stepped
      | cons frame frames =>
          cases stepped
          refine told.congr (congrArg (·[number]?) (Outcome.caches_next ..)) ?_
          rcases outcome with failure | (value | callable) <;> cases frame <;> rfl
  | applying other key stage =>
      simp only [Activity.next] at stepped
      split at stepped
      · cases stepped
      next cache found =>
        by_cases here : other = number
        · subst here
          obtain ⟨threads, marks, cached, member⟩ := sound rfl found
          exact told.progress_advance found cached member stepped
        · exact told.progress_of_ne here stepped
  | counting other progress =>
      simp only [Activity.next] at stepped
      split at stepped
      · cases stepped
      next cache found => exact told.progress_count found stepped

/-! ## Programs -/

namespace System

variable {limit : Nat} {system after : System} {number : Nat} {cache : Cache} {frames : List Frame}

/-- Whatever happens keeps the books right. -/
private theorem told_of_happens (told : system.world.Told number) (sound : system.Sound)
    (happens : Happens limit system after) : after.world.Told number := by
  cases happens with
  | step thread stepped =>
      obtain ⟨⟨current, pending, outcomes⟩, next, world, present, moved, rfl⟩ :=
        step_eq_some stepped
      cases current with
      | none =>
          cases pending with
          | nil => cases moved
          | cons task pending =>
              cases moved
              exact told
      | some activity =>
          simp only [Worker.next] at moved
          split at moved
          next progress =>
            cases moved
            refine Activity.told_of_next told (fun {key stage cache} focus found => ?_) progress
            obtain ⟨_, frames⟩ := activity
            subst focus
            have at' : system.At thread ⟨.applying number key stage, frames⟩ := ⟨_, present, rfl⟩
            exact ⟨_, _, sound.present found, at'.mem_phases⟩
          next => cases moved
          next =>
            cases moved
            exact told
  | @make world made workers makes =>
      cases found : world.caches[number]? with
      | some cache =>
          refine told.congr ((makes.caches found).trans found.symm) ?_
          cases makes with
          | define name function | create code => rfl
          | memoize policy retention callable => cases callable <;> rfl
      | none =>
          have unreported : made.reports number = [] := by
            have none : world.reports number = [] := by
              rwa [World.Told, found] at told
            cases makes with
            | define name function | create code => exact none
            | memoize policy retention callable => cases callable <;> exact none
          cases kept : made.caches[number]? with
          | some cache =>
              obtain ⟨policy, empty⟩ := makes.empty_of_absent found kept
              rw [World.told_of_some kept, unreported, empty]
              cases policy <;> exact ⟨rfl, fun _ => rfl⟩
          | none => rwa [World.Told, kept]
  | start tasks few done => exact told

/-- The books of a program are right at every moment. -/
theorem Reached.told (reached : system.Reached limit)
    (found : system.world.caches[number]? = some cache) :
    cache.storage.Told (system.world.reports number) := by
  refine (World.told_of_some found).mp ?_
  clear found
  induction reached with
  | refl => rfl
  | tail before happens induction => exact told_of_happens induction (Reached.sound before) happens

/-- Between the stages of applications every run has become something, or is going on. -/
theorem Between.balanced (between : system.Between frames) (reached : system.Reached 1)
    (number : Nat) :
    Balanced number system.world.log (Frame.keys number frames).length := by
  obtain ⟨misses, starts⟩ := (between.opens reached).balanced number
  have event : ∀ sort entry, Entry.isEvent number sort entry = true → entry.isTraffic = true := by
    intro sort entry left
    unfold Entry.isEvent at left
    split at left
    · rfl
    · cases left
  have start : ∀ entry, Entry.isStart number entry = true → entry.isTraffic = true := by
    intro entry left
    cases entry <;> first | rfl | cases left
  have failure : ∀ entry, Entry.isFailure number entry = true → entry.isTraffic = true := by
    intro entry left
    cases entry <;> first | rfl | cases left
  rw [system.world.countP_traffic (event _), system.world.countP_traffic start] at misses
  rw [system.world.countP_traffic (event _), system.world.countP_traffic (event _),
    system.world.countP_traffic start, system.world.countP_traffic failure] at starts
  exact ⟨misses, starts⟩

/-- In a program of a single thread the log accounts for the caches. An application that has come back
has left one episode: a hit; a rejection; or a miss, the start of a run, the episodes of the
applications inside of it, its end, and then that the result was stored, or that it was not retained
if there was one, and that the slot was removed if the cache has slots. At every moment a cache holds
as many results as were reported as stored, and for a cache with a single lock these reports say one,
two, three and so on. At every moment at which the thread is at no stage of an application every miss
has started a run, and of the runs each was stored, was not retained, failed, or is still going on; so
none is left over when no application is. The report of a removed slot says how many results are
stored and how many arguments are still computed. -/
theorem log_accounts_for_caches (reached : system.Reached 1) :
    (∀ {after number key frames outcome},
      system.At 0 ⟨.run (.apply (.memoized number) key), frames⟩ →
      During 1 0 frames system after → after.At 0 ⟨.answer outcome, frames⟩ →
      ∃ entries, Episode after.world.rules number key outcome entries ∧
        after.world.traffic = entries ++ system.world.traffic) ∧
    (∀ {number cache}, system.world.caches[number]? = some cache →
      cache.storage.size = system.world.log.countP (Entry.isEvent number Event.isStored) ∧
      (cache.storage.policy = .global → (system.world.reports number).reverse =
        (List.range' 1 cache.storage.size).map some)) ∧
    (∀ {frames}, system.Between frames → ∀ number,
      Balanced number system.world.log (Frame.keys number frames).length) ∧
    ∀ {after number key slots}, Happens 1 system after →
      after.world.log = .event number (some key) (.slotRemoved slots) :: system.world.log →
      ∃ focus frames cache, after.At 0 ⟨focus, frames⟩ ∧
        after.world.caches[number]? = some cache ∧
        slots = cache.storage.size + (Frame.keys number frames).length := by
  refine ⟨fun begun during back => exists_episode reached begun during back,
    fun {number cache} found => ?_, fun between number => between.balanced reached number,
    fun happens log => slots_of_removal reached happens log⟩
  obtain ⟨length, ordered⟩ := reached.told found
  rw [World.length_reports] at length
  exact ⟨length.symm, ordered⟩

/-- An application to 2 applies the function to 1 twice, which fails twice, and to 0 inside of these
runs, which is stored by the first and found by the second. When the slot of 1 is removed for the
first time, those of 0 and 2 are left. -/
theorem log_accounts_for_caches_stumbling :
    ∃ begun clearing removed back cache entries,
      (callers .perKey stumbling [[.int 2]]).follow (List.replicate 1 0) = some begun ∧
      begun.At 0 ⟨.run (.apply (.memoized 0) (.int 2)), []⟩ ∧
      begun.follow (List.replicate 37 0) = some clearing ∧ clearing.step 0 = some removed ∧
      removed.world.log = .event 0 (some (.int 1)) (.slotRemoved 2) :: clearing.world.log ∧
      (∃ focus frames cache, removed.At 0 ⟨focus, frames⟩ ∧
        removed.world.caches[0]? = some cache ∧
        2 = cache.storage.size + (Frame.keys 0 frames).length) ∧
      begun.follow (List.replicate 76 0) = some back ∧
      back.At 0 ⟨.answer (.error (.raised (.text "no result"))), []⟩ ∧
      Episode back.world.rules 0 (.int 2) (.error (.raised (.text "no result"))) entries ∧
      back.world.traffic = entries ++ begun.world.traffic ∧
      back.world.caches[0]? = some cache ∧ cache.storage.size = 1 ∧
      back.world.log.countP (Entry.isEvent 0 Event.isStored) = 1 ∧
      back.world.log.countP (Entry.isEvent 0 Event.isMiss) = 4 ∧ Balanced 0 back.world.log 0 := by
  have followed : ∃ begun clearing removed back cache,
      (callers .perKey stumbling [[.int 2]]).follow (List.replicate 1 0) = some begun ∧
      (begun.workers[0]?).bind (·.current) = some ⟨.run (.apply (.memoized 0) (.int 2)), []⟩ ∧
      begun.follow (List.replicate 37 0) = some clearing ∧ clearing.step 0 = some removed ∧
      removed.world.log.head? = some (.event 0 (some (.int 1)) (.slotRemoved 2)) ∧
      removed.world.log.length = clearing.world.log.length + 1 ∧
      begun.follow (List.replicate 76 0) = some back ∧
      (back.workers[0]?).bind (·.current) =
        some ⟨.answer (.error (.raised (.text "no result"))), []⟩ ∧
      back.world.caches[0]? = some cache ∧ cache.storage.size = 1 ∧
      back.world.log.countP (Entry.isEvent 0 Event.isMiss) = 4 ∧
      Along (·.Inside 0 []) begun (List.replicate 76 0) :=
    ⟨_, _, _, _, _, rfl, rfl, rfl, rfl, rfl, by decide +kernel, rfl, rfl, rfl, by decide +kernel,
      by decide +kernel, by decide +kernel⟩
  obtain ⟨begun, clearing, removed, back, cache, followed, begins, first, stepped, latest, length,
    second, ends, found, size, misses, inside⟩ := followed
  rw [Option.bind_eq_some_iff] at begins ends
  have reached : begun.Reached 1 :=
    (reached_callers .perKey stumbling [[.int 2]]).trans (Reaches.of_follow followed)
  have happens : Happens 1 clearing removed := .step 0 stepped
  have log := happens.log_eq_cons latest length
  obtain ⟨episodes, -, -, -⟩ := log_accounts_for_caches reached
  obtain ⟨entries, episode, traffic⟩ := episodes begins (reaches_along second inside) ends
  obtain ⟨-, -, -, slots⟩ := log_accounts_for_caches (reached.trans (Reaches.of_follow first))
  obtain ⟨-, books, balanced, -⟩ :=
    log_accounts_for_caches (reached.trans (Reaches.of_follow second))
  obtain ⟨stored, -⟩ := books found
  rw [size] at stored
  exact ⟨begun, clearing, removed, back, cache, entries, followed, begins, first, stepped, log,
    slots happens log, second, ends, episode, traffic, found, size, stored.symm, misses,
    balanced (.inl ⟨_, ends, by simp⟩) 0⟩

end System

end FunctionValues
