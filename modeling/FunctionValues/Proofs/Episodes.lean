import FunctionValues.Proofs.Removals
import FunctionValues.Proofs.Applications

/-!
# What applications leave in the log

A program of a single thread. Every application of a memoized function that comes back has left one
of a few episodes in the log: a hit; a rejection; or a miss, the beginning of a run, the episodes of
the applications inside of that run, its end, and what became of the outcome. At every moment the log
is a sequence of whole episodes, inside of the beginnings of those that are still going on.
-/

namespace FunctionValues

/-! ## Episodes -/

/-- Whether an entry was left by an application: an event with an argument, or the beginning or the
end of a run. -/
def Entry.isTraffic : Entry → Bool
  | event _ (some _) _ | started .. | ended .. => true
  | call .. | event _ none _ => false

/-- What applications have left in the log, the latest first. -/
def World.traffic (world : World) : List Entry :=
  world.log.filter Entry.isTraffic

/-- The policy of each cache, and what it keeps. -/
def World.rules (world : World) (number : Nat) : Option (Policy × Retention) :=
  (world.caches[number]?).map fun cache => (cache.storage.policy, cache.retention)

/-- What is reported of a slot that is given up, which only a cache with a lock for each argument
has. -/
def Policy.removal : Policy → Nat → List Event
  | global, _ => []
  | perKey, slots => [.slotRemoved slots]

/-- What is reported of an outcome when its run has ended, the latest first. -/
inductive Outcome.Closes (policy : Policy) (retention : Retention) : Outcome → List Event → Prop
  | stored {result : Result} (keeps : retention.keeps result = true) (entries : Option Nat) :
      Closes policy retention (.ok result) [.stored entries]
  | vain {outcome : Outcome} (vain : retention.retains outcome = false) (slots : Nat) :
      Closes policy retention outcome (policy.removal slots ++ outcome.verdict)

mutual

/-- What an application leaves in the log until it comes back with an outcome, the latest first. -/
inductive Episode (rules : Nat → Option (Policy × Retention)) :
    Nat → Value → Outcome → List Entry → Prop
  | hit {number : Nat} {key : Value} {policy : Policy} {retention : Retention}
      (rule : rules number = some (policy, retention)) (result : Result) :
      Episode rules number key (.ok result) [.event number (some key) (.hit policy)]
  | rejected {number : Nat} {key : Value} {policy : Policy} {retention : Retention}
      (rule : rules number = some (policy, retention)) :
      Episode rules number key (.error (.reentered policy))
        [.event number (some key) (.reentryRejected policy)]
  | computed {number : Nat} {key : Value} {policy : Policy} {retention : Retention}
      {outcome : Outcome} {body : List Entry} {closing : List Event}
      (rule : rules number = some (policy, retention)) (inside : Episodes rules body)
      (closes : outcome.Closes policy retention closing) :
      Episode rules number key outcome (closing.map (.event number (some key)) ++
        .ended number key outcome ::
          (body ++ [.started number key, .event number (some key) (.miss policy)]))

/-- Whole episodes, one after another. -/
inductive Episodes (rules : Nat → Option (Policy × Retention)) : List Entry → Prop
  | none : Episodes rules []
  | more {number : Nat} {key : Value} {outcome : Outcome} {entries earlier : List Entry}
      (episode : Episode rules number key outcome entries) (before : Episodes rules earlier) :
      Episodes rules (entries ++ earlier)

end

section

variable {rules : Nat → Option (Policy × Retention)} {number : Nat} {key : Value}
  {policy : Policy} {retention : Retention} {stage : Stage} {outcome : Outcome}
  {own earlier entries : List Entry} {frames : List Frame}

/-! ## Applications -/

/-- What a run has left in the log when it ends, from the miss on. -/
def Computed (rules : Nat → Option (Policy × Retention)) (policy : Policy) (number : Nat)
    (key : Value) (outcome : Outcome) (entries : List Entry) : Prop :=
  ∃ body, Episodes rules body ∧ entries = .ended number key outcome ::
    (body ++ [.started number key, .event number (some key) (.miss policy)])

/-- What an application has left in the log when it is at a stage. -/
def Stage.Writes (rules : Nat → Option (Policy × Retention)) (policy : Policy)
    (retention : Retention) (number : Nat) (key : Value) (entries : List Entry) : Stage → Prop
  | seek | check _ | lock _ | look _ => entries = []
  | start _ => entries = [.event number (some key) (.miss policy)]
  | settle _ outcome | keep _ outcome => Computed rules policy number key outcome entries
  | unlock _ outcome true | enter _ outcome | inspect _ outcome | clear _ outcome =>
    retention.retains outcome = false ∧ ∃ before, Computed rules policy number key outcome before ∧
      entries = outcome.verdict.map (.event number (some key)) ++ before
  | unlock _ outcome false | leave _ outcome | drop _ outcome =>
    Episode rules number key outcome entries

/-- A run whose outcome is reported makes an episode. -/
private theorem Computed.episode {closing : List Event}
    (computed : Computed rules policy number key outcome entries)
    (rule : rules number = some (policy, retention))
    (closes : outcome.Closes policy retention closing) :
    Episode rules number key outcome (closing.map (.event number (some key)) ++ entries) := by
  obtain ⟨body, inside, rfl⟩ := computed
  exact .computed rule inside closes

/-- What an application has left follows the rule of its cache. -/
theorem Stage.Writes.ruled {policy' : Policy} {retention' : Retention}
    (writes : stage.Writes rules policy retention number key own)
    (rule : stage ≠ .seek → rules number = some (policy, retention))
    (known : rules number = some (policy', retention')) :
    stage.Writes rules policy' retention' number key own := by
  cases stage with
  | seek => exact writes
  | _ =>
      cases (rule (by simp)).symm.trans known
      exact writes

/-- A step of an application to another stage. -/
theorem Stage.Writes.of_go {storage after : Storage} {thread : Thread} {next : Stage}
    {event : Option Event} (rule : rules number = some (storage.policy, retention))
    (writes : stage.Writes rules storage.policy retention number key own)
    (removable : storage.Removable key stage)
    (moved : storage.advance retention thread key stage = .go after event next) :
    next.Writes rules storage.policy retention number key
      (event.toList.map (.event number (some key)) ++ own) := by
  cases Storage.goes_of_go moved with
  | sought | admitted | latched | settled | entered | unshared | left => exact writes
  | refused =>
      obtain rfl : own = [] := writes
      exact .rejected rule
  | hit =>
      obtain rfl : own = [] := writes
      exact .hit rule _
  | missed =>
      obtain rfl : own = [] := writes
      rfl
  | stored place keeps => exact Computed.episode writes rule (.stored keeps _)
  | notRetained place passing =>
      exact ⟨by simpa [Retention.retains] using passing, own, writes, rfl⟩
  | failed => exact ⟨rfl, own, writes, rfl⟩
  | unlatched place outcome vacant => cases vacant <;> exact writes
  | passed place outcome flat cleans =>
      rcases cleans with rfl | rfl | rfl | rfl
      case inr.inr.inr => exact writes
      all_goals
        obtain ⟨vain, before, computed, rfl⟩ := writes
        have episode := computed.episode rule (.vain vain 0)
        rw [flat] at episode
        exact episode
  | shared outcome here shared =>
      cases (removable _ here).symm.trans shared
  | removed outcome here =>
      subst here
      obtain ⟨vain, before, computed, rfl⟩ := writes
      exact computed.episode rule (.vain vain _)
  | spared outcome here filled => exact absurd (removable _ here) filled

/-! ## Threads -/

/-- What has been left in the log when a thread is inside of frames, after what was there earlier:
whole episodes, and the beginnings of those that the thread is still inside of. -/
inductive Frame.Opens (rules : Nat → Option (Policy × Retention)) (earlier : List Entry) :
    List Frame → List Entry → Prop
  | closed {body : List Entry} (episodes : Episodes rules body) :
      Opens rules earlier [] (body ++ earlier)
  | bind {next : Reply → Computation} {frames : List Frame} {entries : List Entry}
      (outside : Opens rules earlier frames entries) :
      Opens rules earlier (.bind next :: frames) entries
  | feed {argument : Value} {frames : List Frame} {entries : List Entry}
      (outside : Opens rules earlier frames entries) :
      Opens rules earlier (.feed argument :: frames) entries
  | computing {number : Nat} {key : Value} {policy : Policy} {retention : Retention}
      {frames : List Frame} {body entries : List Entry} (place : Nat)
      (rule : rules number = some (policy, retention)) (inside : Episodes rules body)
      (outside : Opens rules earlier frames entries) :
      Opens rules earlier (.computing number key place :: frames)
        (body ++ [.started number key, .event number (some key) (.miss policy)] ++ entries)

/-- What has been left in the log when a thread is somewhere in a task. -/
inductive Activity.Logs (rules : Nat → Option (Policy × Retention)) (earlier : List Entry) :
    Activity → List Entry → Prop
  | apart {focus : Focus} {frames : List Frame} {entries : List Entry}
      (aside : ∀ number key stage, focus ≠ .applying number key stage)
      (opens : Frame.Opens rules earlier frames entries) : Logs rules earlier ⟨focus, frames⟩ entries
  | applying {number : Nat} {key : Value} {stage : Stage} {policy : Policy} {retention : Retention}
      {frames : List Frame} {own entries : List Entry}
      (rule : stage ≠ .seek → rules number = some (policy, retention))
      (writes : stage.Writes rules policy retention number key own)
      (opens : Frame.Opens rules earlier frames entries) :
      Logs rules earlier ⟨.applying number key stage, frames⟩ (own ++ entries)

/-- An episode that ends lies inside of the frames that are there. -/
theorem Frame.Opens.episode (opens : Frame.Opens rules earlier frames entries)
    (episode : Episode rules number key outcome own) :
    Frame.Opens rules earlier frames (own ++ entries) := by
  induction opens with
  | closed episodes =>
      rw [← List.append_assoc]
      exact .closed (.more episode episodes)
  | bind _ induction => exact .bind induction
  | feed _ induction => exact .feed induction
  | computing place rule inside outside =>
      rw [List.append_assoc, ← List.append_assoc, ← List.append_assoc]
      exact .computing place rule (.more episode inside) outside

end

/-! ## What steps leave in the log -/

namespace World

theorem traffic_record (world : World) {entry : Entry} (left : entry.isTraffic = true) :
    (world.record entry).traffic = entry :: world.traffic := by
  simp only [traffic, record, List.filter_cons_of_pos left]

theorem traffic_recordEvent (world : World) (number : Nat) (key : Value) (event : Option Event) :
    (world.recordEvent number key event).traffic =
      event.toList.map (.event number (some key)) ++ world.traffic := by
  cases event with
  | none => rfl
  | some event => exact traffic_record world rfl

@[simp]
theorem traffic_setStorage (world : World) (number : Nat) (storage : Storage) :
    (world.setStorage number storage).traffic = world.traffic :=
  rfl

/-- Making a function leaves nothing of an application. -/
theorem Makes.traffic {world after : World} (makes : world.Makes after) :
    after.traffic = world.traffic := by
  cases makes with
  | define name function | create code => rfl
  | memoize policy retention callable => cases callable <;> rfl

/-- The rules are those of the caches of a world. -/
def Obeys (world : World) (rules : Nat → Option (Policy × Retention)) : Prop :=
  ∀ (number : Nat) (cache : Cache), world.caches[number]? = some cache →
    rules number = some (cache.storage.policy, cache.retention)

theorem obeys_rules (world : World) : world.Obeys world.rules := by
  intro number cache found
  simp [rules, found]

end World

/-- What obeys rules in the end has obeyed them before. -/
theorem System.Happens.obeys {limit : Nat} {system after : System}
    {rules : Nat → Option (Policy × Retention)} (happens : Happens limit system after)
    (obeys : after.world.Obeys rules) : system.world.Obeys rules := by
  intro number cache found
  obtain ⟨storage, kept, policy⟩ := happens.caches found
  rw [obeys number _ kept, policy]

namespace Activity

variable {rules : Nat → Option (Policy × Retention)} {earlier : List Entry} {world after : World}
  {thread : Thread} {activity next : Activity}

/-- An application that begins has left nothing. -/
theorem Logs.seek {frames : List Frame} {entries : List Entry} {number : Nat} {key : Value}
    (opens : Frame.Opens rules earlier frames entries) :
    Logs rules earlier ⟨.applying number key .seek, frames⟩ entries := by
  have writes : Stage.seek.Writes rules .global .all number key [] := rfl
  exact .applying (fun later => absurd rfl later) writes opens

/-- A run that ends leaves its end. -/
theorem Logs.settle {frames : List Frame} {entries body : List Entry} {number place : Nat}
    {key : Value} {policy : Policy} {retention : Retention} (outcome : Outcome)
    (rule : rules number = some (policy, retention)) (inside : Episodes rules body)
    (outside : Frame.Opens rules earlier frames entries) :
    Logs rules earlier ⟨.applying number key (.settle place outcome), frames⟩
      (.ended number key outcome ::
        (body ++ [.started number key, .event number (some key) (.miss policy)] ++ entries)) := by
  have writes : (Stage.settle place outcome).Writes rules policy retention number key
      (.ended number key outcome ::
        (body ++ [.started number key, .event number (some key) (.miss policy)])) :=
    ⟨body, inside, rfl⟩
  exact .applying (fun _ => rule) writes outside

/-- A step of a thread leaves what it should. -/
theorem Logs.of_next (logs : activity.Logs rules earlier world.traffic) (obeys : world.Obeys rules)
    (removable : ∀ {number key stage cache}, activity.focus = .applying number key stage →
      world.caches[number]? = some cache → cache.storage.Removable key stage)
    (stepped : activity.next thread world = .step after next) :
    next.Logs rules earlier after.traffic := by
  generalize before : world.traffic = entries at logs
  cases logs with
  | @apart focus frames entries aside opens =>
      cases focus with
      | run computation =>
          cases stepped
          cases computation with
          | apply callable argument =>
              cases callable with
              | plain identity code => exact .apart (by simp) (before ▸ opens)
              | memoized number => exact .seek (before ▸ opens)
          | bind first next => exact .apart (by simp) (before ▸ .bind opens)
          | feed first argument => exact .apart (by simp) (before ▸ .feed opens)
          | _ => exact .apart (by simp) (before ▸ opens)
      | answer outcome =>
          cases opens with
          | closed episodes => cases stepped
          | bind outside | feed outside =>
              cases stepped
              rcases outcome with failure | (value | callable) <;>
                exact .apart (by simp) (before ▸ outside)
          | computing place rule inside outside =>
              rw [next_answer_computing] at stepped
              cases stepped
              rw [World.traffic_record _ rfl, before]
              exact .settle outcome rule inside outside
      | applying number key stage => exact absurd rfl (aside number key stage)
      | counting number progress =>
          simp only [Activity.next] at stepped
          split at stepped
          · cases stepped
          · unfold CountMove.progress at stepped
            split at stepped <;> cases stepped <;> exact .apart (by simp) (before ▸ opens)
  | @applying number key stage policy retention frames own entries rule writes opens =>
      simp only [Activity.next] at stepped
      split at stepped
      · cases stepped
      next cache found =>
        have known := obeys number cache found
        have ruled := writes.ruled rule known
        have removes := removable rfl found
        cases moved : cache.storage.advance cache.retention thread key stage with
        | wait => simp [moved, Move.progress] at stepped
        | go storage event following =>
            rw [moved] at stepped
            cases stepped
            rw [World.traffic_recordEvent, World.traffic_setStorage, before, ← List.append_assoc]
            exact .applying (fun _ => known) (ruled.of_go known removes moved) opens
        | compute storage place =>
            rw [moved] at stepped
            cases stepped
            obtain ⟨rfl, -⟩ := Storage.eq_start_of_compute moved
            obtain rfl : own = _ := ruled
            rw [World.traffic_record _ rfl, World.traffic_setStorage, before]
            exact .apart (by simp) (.computing place known .none opens)
        | finish storage outcome =>
            rw [moved] at stepped
            cases stepped
            obtain ⟨place, rfl, -⟩ := Storage.eq_drop_of_finish moved
            rw [World.traffic_setStorage, before]
            exact .apart (by simp) (opens.episode ruled)

end Activity

/-! ## Programs of a single thread -/

namespace System

variable {rules : Nat → Option (Policy × Retention)} {system middle after : System}
  {earlier : List Entry} {number : Nat} {key : Value} {frames : List Frame} {outcome : Outcome}

/-- What happens to a task is a step of the thread that is at it, or leaves nothing. -/
theorem At.step_or_still {activity : Activity} (at' : system.At 0 activity)
    (alone : system.workers.length ≤ 1) (happens : Happens 1 system after) :
    system.step 0 = some after ∨ after.At 0 activity ∧ after.world.traffic = system.world.traffic := by
  cases happens with
  | step thread stepped =>
      obtain ⟨worker, next, world, present, -, -⟩ := step_eq_some stepped
      have inside := (List.getElem?_eq_some_iff.mp present).1
      obtain rfl : thread = 0 := Nat.lt_one_iff.mp (Nat.lt_of_lt_of_le inside alone)
      exact .inl stepped
  | make made => exact .inr ⟨at', made.traffic⟩
  | start tasks few done =>
      obtain ⟨worker, present, current⟩ := at'
      have idle := done worker (List.mem_of_getElem? present)
      simp [Worker.isDone, current] at idle

/-- What has been left in the log of a program. -/
structure Logged (rules : Nat → Option (Policy × Retention)) (system : System) : Prop where
  busy {activity : Activity} (at' : system.At 0 activity) :
    activity.Logs rules [] system.world.traffic
  idle (idle : ∀ worker ∈ system.workers, worker.current = none) :
    Episodes rules system.world.traffic

/-- Whatever happens leaves what it should. -/
private theorem Logged.of_happens (logged : system.Logged rules) (reached : system.Reached 1)
    (obeys : system.world.Obeys rules) (happens : Happens 1 system after) : after.Logged rules := by
  cases happens with
  | step thread stepped =>
      obtain ⟨⟨current, pending, outcomes⟩, next, world, present, moved, rfl⟩ :=
        step_eq_some stepped
      have inside := (List.getElem?_eq_some_iff.mp present).1
      obtain rfl : thread = 0 := Nat.lt_one_iff.mp (Nat.lt_of_lt_of_le inside reached.length_le)
      have first : (system.workers.set 0 next)[0]? = some next := List.getElem?_set_self inside
      have only : ∀ worker ∈ system.workers, worker = ⟨current, pending, outcomes⟩ := by
        obtain ⟨world, workers⟩ := system
        match workers, reached.length_le with
        | [worker], _ => simpa using present
      cases current with
      | none =>
          have episodes := logged.idle fun worker member => by rw [only worker member]
          cases pending with
          | nil => cases moved
          | cons task pending =>
              cases moved
              refine ⟨fun {activity} at' => ?_, fun idle => episodes⟩
              obtain ⟨worker, there, same⟩ := at'
              rw [first, Option.some.injEq] at there
              subst there
              cases same
              rw [← List.append_nil system.world.traffic]
              cases task <;> exact .apart (by simp) (.closed episodes)
      | some activity =>
          have at' : system.At 0 activity := ⟨_, present, rfl⟩
          have logs := logged.busy at'
          simp only [Worker.next] at moved
          split at moved
          next progress =>
            cases moved
            refine ⟨fun {activity'} there => ?_, fun idle => ?_⟩
            · obtain ⟨worker, there, same⟩ := there
              rw [first, Option.some.injEq] at there
              subst there
              cases same
              refine logs.of_next obeys (fun {number key stage cache} focus found => ?_) progress
              obtain ⟨_, frames⟩ := activity
              subst focus
              exact at'.removable reached found
            · have busy := idle _ (List.mem_of_getElem? first)
              cases busy
          next => cases moved
          next progress =>
            cases moved
            obtain rfl := Activity.eq_answer_of_next_done progress
            refine ⟨fun {activity'} there => ?_, fun idle => ?_⟩
            · obtain ⟨worker, there, same⟩ := there
              rw [first, Option.some.injEq] at there
              subst there
              cases same
            · change Episodes rules system.world.traffic
              generalize system.world.traffic = entries at logs ⊢
              cases logs with
              | apart aside opens =>
                  cases opens with
                  | closed episodes =>
                      rw [List.append_nil]
                      exact episodes
  | make made =>
      refine ⟨fun {activity} at' => ?_, fun idle => ?_⟩
      · rw [made.traffic]
        exact logged.busy at'
      · rw [made.traffic]
        exact logged.idle idle
  | start tasks few done =>
      refine ⟨fun {activity} at' => ?_, fun idle => logged.idle fun worker member => ?_⟩
      · obtain ⟨worker, present, current⟩ := at'
        have begun := List.mem_of_getElem? present
        simp only [ofTasks, List.mem_map] at begun
        obtain ⟨_, -, rfl⟩ := begun
        cases current
      · have ended := done worker member
        simp only [Worker.isDone, Bool.and_eq_true, Option.isNone_iff_eq_none] at ended
        exact ended.1

/-- The log of a program is a sequence of episodes, at every moment. -/
theorem Reached.logged (reached : system.Reached 1) (obeys : system.world.Obeys rules) :
    system.Logged rules := by
  induction reached with
  | refl =>
      refine ⟨fun {activity} at' => ?_, fun idle => .none⟩
      obtain ⟨worker, present, -⟩ := at'
      cases present
  | tail before happens induction =>
      have obeyed := happens.obeys obeys
      exact (induction obeyed).of_happens before obeyed happens

/-- Between the stages of applications the log holds whole episodes and the beginnings of those that
are going on. -/
theorem Between.opens (between : system.Between frames) (reached : system.Reached 1) :
    Frame.Opens system.world.rules [] frames system.world.traffic := by
  have logged := reached.logged system.world.obeys_rules
  rcases between with ⟨focus, at', apart⟩ | ⟨rfl, idle⟩
  · have logs := logged.busy at'
    generalize system.world.traffic = entries at logs ⊢
    cases logs with
    | apart aside opens => exact opens
    | applying rule writes opens => exact absurd rfl (apart _ _ _)
  · rw [← List.append_nil system.world.traffic]
    exact .closed (logged.idle idle)

/-- How far an application has come, and what it has left. -/
private inductive Recorded (rules : Nat → Option (Policy × Retention)) (earlier : List Entry)
    (number : Nat) (key : Value) (frames : List Frame) (now : System) : Prop
  | begun (at' : now.At 0 ⟨.run (.apply (.memoized number) key), frames⟩)
      (left : now.world.traffic = earlier)
  | applying {stage : Stage} {own : List Entry} {policy : Policy} {retention : Retention}
      (at' : now.At 0 ⟨.applying number key stage, frames⟩)
      (rule : stage ≠ .seek → rules number = some (policy, retention))
      (writes : stage.Writes rules policy retention number key own)
      (left : now.world.traffic = own ++ earlier)
  | running {activity : Activity} {place : Nat} {policy : Policy} {retention : Retention}
      (at' : now.At 0 (activity.within (.computing number key place :: frames)))
      (rule : rules number = some (policy, retention))
      (logs : activity.Logs rules
        ([.started number key, .event number (some key) (.miss policy)] ++ earlier)
        now.world.traffic)
  | back {outcome : Outcome} {own : List Entry} (at' : now.At 0 ⟨.answer outcome, frames⟩)
      (episode : Episode rules number key outcome own)
      (left : now.world.traffic = own ++ earlier)

namespace Recorded

/-- A step of an application. -/
private theorem of_applying {stage : Stage} {own : List Entry} {policy : Policy}
    {retention : Retention} (at' : middle.At 0 ⟨.applying number key stage, frames⟩)
    (rule : stage ≠ .seek → rules number = some (policy, retention))
    (writes : stage.Writes rules policy retention number key own)
    (left : middle.world.traffic = own ++ earlier) (reached : middle.Reached 1)
    (obeys : middle.world.Obeys rules) (stepped : middle.step 0 = some after) :
    Recorded rules earlier number key frames after := by
  cases found : middle.world.caches[number]? with
  | none =>
      have waits : Activity.next 0 middle.world ⟨.applying number key stage, frames⟩ = .wait := by
        simp only [Activity.next, found]
      rw [at'.step_of_wait waits] at stepped
      cases stepped
  | some cache =>
      have known := obeys number cache found
      have ruled := writes.ruled rule known
      have progress : Activity.next 0 middle.world ⟨.applying number key stage, frames⟩ =
          (cache.storage.advance cache.retention 0 key stage).progress middle.world number
            cache.underlying key frames := by
        simp only [Activity.next, found]
      cases moved : cache.storage.advance cache.retention 0 key stage with
      | wait =>
          rw [moved] at progress
          rw [at'.step_of_wait progress] at stepped
          cases stepped
      | go storage event next =>
          rw [moved] at progress
          obtain ⟨world, there⟩ := at'.eq_of_progress stepped progress
          have goes := ruled.of_go known (at'.removable reached found) moved
          refine .applying there (fun _ => known) goes ?_
          rw [world, World.traffic_recordEvent, World.traffic_setStorage, left, List.append_assoc]
      | compute storage place =>
          rw [moved] at progress
          obtain ⟨world, there⟩ := at'.eq_of_progress stepped progress
          obtain ⟨rfl, -⟩ := Storage.eq_start_of_compute moved
          obtain rfl : own = _ := ruled
          have inside : after.At 0 (Activity.within (.computing number key place :: frames)
              ⟨.run (.apply cache.underlying key), []⟩) := there
          refine .running inside known ?_
          rw [world, World.traffic_record _ rfl, World.traffic_setStorage, left]
          exact .apart (by simp) (.closed .none)
      | finish storage outcome =>
          rw [moved] at progress
          obtain ⟨world, there⟩ := at'.eq_of_progress stepped progress
          obtain ⟨place, rfl, -⟩ := Storage.eq_drop_of_finish moved
          refine .back there ruled ?_
          rw [world, World.traffic_setStorage, left]

/-- A step inside of the run of the function, or past the end of it. -/
private theorem of_running {activity : Activity} {place : Nat} {policy : Policy}
    {retention : Retention}
    (at' : middle.At 0 (activity.within (.computing number key place :: frames)))
    (rule : rules number = some (policy, retention))
    (logs : activity.Logs rules
      ([.started number key, .event number (some key) (.miss policy)] ++ earlier)
      middle.world.traffic)
    (reached : middle.Reached 1) (obeys : middle.world.Obeys rules)
    (stepped : middle.step 0 = some after) : Recorded rules earlier number key frames after := by
  by_cases ended : ∃ outcome, activity = ⟨.answer outcome, []⟩
  · obtain ⟨outcome, rfl⟩ := ended
    obtain ⟨world, there⟩ := at'.eq_of_progress stepped (Activity.next_answer_computing ..)
    generalize before : middle.world.traffic = entries at logs
    cases logs with
    | apart aside opens =>
        cases opens with
        | @closed body episodes =>
            refine .applying there (fun _ => rule) ⟨body, episodes, rfl⟩ ?_
            rw [world, World.traffic_record _ rfl, before]
            simp
  · rw [not_exists] at ended
    have same : Activity.next 0 middle.world
        (activity.within (.computing number key place :: frames)) =
        (Activity.next 0 middle.world activity).within (.computing number key place :: frames) :=
      Activity.next_within _ ended
    cases progress : Activity.next 0 middle.world activity with
    | step world next =>
        rw [progress] at same
        obtain ⟨rfl, there⟩ := at'.eq_of_progress stepped same
        refine .running there rule (logs.of_next obeys ?_ progress)
        intro number' key' stage cache focus found
        obtain ⟨_, inner⟩ := activity
        subst focus
        exact at'.removable reached found
    | wait =>
        rw [progress] at same
        rw [at'.step_of_wait same] at stepped
        cases stepped
    | done outcome => exact absurd (Activity.eq_answer_of_next_done progress) (ended outcome)

/-- Whatever happens while the thread stays inside of its frames, the application goes on. -/
private theorem of_happens (recorded : Recorded rules earlier number key frames middle)
    (reached : middle.Reached 1) (obeys : middle.world.Obeys rules)
    (happens : Happens 1 middle after) (inside : after.Inside 0 frames) :
    Recorded rules earlier number key frames after := by
  cases recorded with
  | begun at' left =>
      rcases at'.step_or_still reached.length_le happens with stepped | ⟨still, same⟩
      · obtain ⟨world, there⟩ := at'.eq_of_progress stepped rfl
        have writes : Stage.seek.Writes rules .global .all number key [] := rfl
        exact .applying there (fun later => absurd rfl later) writes (by rw [world]; exact left)
      · exact .begun still (same.trans left)
  | applying at' rule writes left =>
      rcases at'.step_or_still reached.length_le happens with stepped | ⟨still, same⟩
      · exact of_applying at' rule writes left reached obeys stepped
      · exact .applying still rule writes (same.trans left)
  | running at' rule logs =>
      rcases at'.step_or_still reached.length_le happens with stepped | ⟨still, same⟩
      · exact of_running at' rule logs reached obeys stepped
      · exact .running still rule (same ▸ logs)
  | back at' episode left =>
      rcases at'.step_or_still reached.length_le happens with stepped | ⟨still, same⟩
      · exact absurd inside (at'.leaves stepped)
      · exact .back still episode (same.trans left)

end Recorded

/-- An application that has come back has left one episode. -/
theorem exists_episode (reached : system.Reached 1)
    (begun : system.At 0 ⟨.run (.apply (.memoized number) key), frames⟩)
    (during : During 1 0 frames system after) (back : after.At 0 ⟨.answer outcome, frames⟩) :
    ∃ entries, Episode after.world.rules number key outcome entries ∧
      after.world.traffic = entries ++ system.world.traffic := by
  have recorded : ∀ {rules}, after.world.Obeys rules →
      Recorded rules system.world.traffic number key frames after := by
    intro rules obeys
    clear back
    induction during with
    | refl => exact .begun begun rfl
    | tail before step induction =>
        have obeyed := step.1.obeys obeys
        have reached' := Relation.ReflTransGen.trans reached (During.reaches before)
        exact (induction obeyed).of_happens reached' obeyed step.1 step.2
  cases recorded after.world.obeys_rules with
  | begun at' left | applying at' rule writes left => cases at'.unique back
  | running at' rule logs =>
      have lengths := congrArg (·.frames.length) (at'.unique back)
      simp only [Activity.frames_within, List.length_append, List.length_cons] at lengths
      omega
  | back at' episode left =>
      cases at'.unique back
      exact ⟨_, episode, left⟩

end System

end FunctionValues
