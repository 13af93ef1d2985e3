import FunctionValues.Proofs.Standings
import FunctionValues.Proofs.Strides
import Mathlib.Order.WellFounded

/-!
# Threads on their courses

Where a thread is while it runs pure code: on the course of its task, or, inside of runs of the
memoized function, on the courses of these. Every step of a thread takes it further on its course and
keeps the accounts of the function, whatever other threads did before.
-/

namespace FunctionValues

namespace Frame

theorem phases_append {number : Nat} {names : Set String} {own : List Frame}
    (pure : ∀ frame ∈ own, frame.IsPure number names) (outer : List Frame) (other : Nat) :
    phases other (own ++ outer) = phases other outer := by
  induction own with
  | nil => rfl
  | cons frame own induction =>
      obtain ⟨first, rest⟩ := List.forall_mem_cons.mp pure
      cases frame with
      | bind next | feed argument => exact induction rest
      | computing cache key place => exact first.elim

/-- Pure code computes nothing at a cache. -/
theorem keys_append {number : Nat} {names : Set String} {own : List Frame}
    (pure : ∀ frame ∈ own, frame.IsPure number names) (outer : List Frame) (other : Nat) :
    keys other (own ++ outer) = keys other outer := by
  rw [keys, phases_append pure, keys]

theorem keys_computing (number : Nat) (key : Value) (place : Nat) (frames : List Frame) :
    keys number (.computing number key place :: frames) = key :: keys number frames := by
  simp [keys, phases, Phase.computed?]

end Frame

namespace Setting

variable (setting : Setting)

/-- Where each lock is for one argument, the function is applied inside of itself only to smaller
arguments. -/
def Descends (less : Value → Value → Prop) : Prop :=
  setting.policy = .perKey → ∀ key other frames deeds, key.isExact = true →
    setting.Leads true ⟨.run (setting.start key), []⟩ deeds
      ⟨.run (.apply (.memoized setting.number) other), frames⟩ → less other key

/-- The computation that a thread is at in the end, if not its task a run of the memoized function,
with the frames outside of it and the deeds of the thread up to its beginning. -/
inductive Within (task : Computation) : Bool → Computation → List Frame → Multiset Deed → Prop
  | task : Within task false task.anonymous [] 0
  | run {inside : Bool} {start : Computation} {own outer : List Frame} {books deeds : Multiset Deed}
      {key : Value} (place : Nat) (within : Within task inside start outer books)
      (leads : setting.Leads inside ⟨.run start, []⟩ deeds
        ⟨.run (.apply (.memoized setting.number) key), own⟩)
      (open' : setting.refuses inside = false) (missing : setting.held? key = none) :
      Within task true (setting.start key) (.computing setting.number key place :: (own ++ outer))
        (books + deeds + Deed.ofLog [.started setting.number key,
          setting.event key (.miss setting.policy)])

/-- A thread is on the course of a task, with its deeds up to there. -/
inductive Follows (task : Computation) : Activity → Multiset Deed → Prop
  | level {inside : Bool} {start : Computation} {outer : List Frame} {books deeds : Multiset Deed}
      (activity : Activity) (within : setting.Within task inside start outer books)
      (leads : setting.Leads inside ⟨.run start, []⟩ deeds activity.anonymous) :
      Follows task ⟨activity.focus, activity.frames ++ outer⟩ (books + deeds)
  | applying {inside : Bool} {start : Computation} {own outer : List Frame} {key : Value}
      {stage : Stage} {books deeds more : Multiset Deed}
      (within : setting.Within task inside start outer books)
      (leads : setting.Leads inside ⟨.run start, []⟩ deeds
        ⟨.run (.apply (.memoized setting.number) key), own⟩)
      (stands : setting.Stands inside key stage more) :
      Follows task ⟨.applying setting.number key stage, own ++ outer⟩ (books + deeds + more)

variable {setting} {less : Value → Value → Prop} {task start : Computation} {inside : Bool}
  {own outer : List Frame} {books deeds : Multiset Deed} {key : Value}

namespace Within

theorem isPure (within : setting.Within task inside start outer books) (pure : setting.IsPure)
    (given : task.IsPure setting.number setting.names) :
    Activity.IsPure setting.number setting.names ⟨.run start, []⟩ := by
  induction within with
  | task => exact ⟨Computation.isPure_anonymous.mpr given, List.forall_mem_nil _⟩
  | run place _ leads _ _ induction =>
      exact pure.start (leads.isPure pure induction).isExact

/-- What a thread computes grows from the innermost run out, where arguments have locks of their
own. -/
private theorem chain (within : setting.Within task inside start outer books) (pure : setting.IsPure)
    (given : task.IsPure setting.number setting.names) (descends : setting.Descends less)
    (policy : setting.policy = .perKey)
    (leads : setting.Leads inside ⟨.run start, []⟩ deeds
      ⟨.run (.apply (.memoized setting.number) key), own⟩) :
    ∀ other ∈ Frame.keys setting.number outer, Relation.TransGen less key other := by
  induction within generalizing key own deeds with
  | task => exact List.forall_mem_nil _
  | @run inside start own' outer books deeds' argument place within leads' open' missing induction =>
      have here := leads'.isPure pure (within.isPure pure given)
      have smaller := descends policy _ _ _ _ here.isExact leads
      rw [Frame.keys_computing, Frame.keys_append here.2, List.forall_mem_cons]
      exact ⟨.single smaller, fun other member => .head smaller (induction leads' other member)⟩

/-- A thread would wait for itself where it is inside of the function and there is one lock for all
arguments, and nowhere else. -/
theorem blocks (within : setting.Within task inside start outer books) (pure : setting.IsPure)
    (given : task.IsPure setting.number setting.names) (founded : WellFounded less)
    (descends : setting.Descends less)
    (leads : setting.Leads inside ⟨.run start, []⟩ deeds
      ⟨.run (.apply (.memoized setting.number) key), own⟩) :
    setting.policy.blocks (Frame.keys setting.number (own ++ outer)) key =
      setting.refuses inside := by
  have here := leads.isPure pure (within.isPure pure given)
  rw [Frame.keys_append here.2]
  cases policy : setting.policy with
  | global =>
      cases within with
      | task => rfl
      | run place _ _ _ _ =>
          simp [Policy.blocks, refuses, policy, Frame.keys, Frame.phases, Phase.computed?]
  | perKey =>
      have refused : setting.refuses inside = false := by simp [refuses, policy]
      rw [refused, Policy.blocks, List.any_eq_false]
      intro other member same
      obtain rfl := Value.eq_of_same here.isExact (Value.same_symm same)
      exact founded.transGen.irrefl.irrefl key
        (within.chain pure given descends policy leads key member)

end Within

/-- A world has the functions that are called, and the cache with this storage. -/
structure Serves (setting : Setting) (world : World) (storage : Storage) : Prop where
  functions : world.functions = setting.functions
  found : world.caches[setting.number]? = some { setting.cache with storage := storage }

namespace Serves

variable {world : World} {storage : Storage}

theorem amend (serves : setting.Serves world storage) (after : Storage) (entries : List Entry) :
    setting.Serves (world.amend setting.number after entries) after where
  functions := serves.functions
  found := World.caches_amend serves.found after entries

theorem record (serves : setting.Serves world storage) (entry : Entry) :
    setting.Serves (world.record entry) storage :=
  ⟨serves.functions, serves.found⟩

theorem of_passes {activity next : Activity} {after : World} {entries : List Entry}
    {thread : Thread} (serves : setting.Serves world storage)
    (passes : setting.Passes thread world activity outer after next entries) :
    setting.Serves after storage :=
  ⟨passes.functions.trans serves.functions, passes.caches ▸ serves.found⟩

end Serves

/-- What a step of a thread that follows the course of a task comes to. -/
def Proceeds (setting : Setting) (task : Computation) (runs : Multiset Value) (world : World)
    (storage : Storage) (books : Multiset Deed) (after : World) (next : Activity) : Prop :=
  ∃ storage' entries books' ran hits, setting.Serves after storage' ∧
    after.log = entries ++ world.log ∧ setting.Follows task next books' ∧
    setting.Posts runs storage storage' entries books books' ran hits

section Step

variable {world after : World} {storage : Storage} {runs : Multiset Value} {thread : Thread}
  {next : Activity} {stage : Stage} {more : Multiset Deed}

/-- A step of pure code outside of all caches. -/
private theorem proceeds_of_passes {activity : Activity} {entries : List Entry}
    (within : setting.Within task inside start outer books)
    (leads : setting.Leads inside ⟨.run start, []⟩ deeds activity.anonymous)
    (serves : setting.Serves world storage) (holds : setting.Holds runs storage)
    (passes : setting.Passes thread world activity outer after next entries) :
    setting.Proceeds task runs world storage (books + deeds) after
      ⟨next.focus, next.frames ++ outer⟩ := by
  have onward := leads.trans (.single (passes.paced inside))
  refine ⟨storage, entries, _, 0, 0, serves.of_passes passes, passes.log, .level next within onward,
    .quiet holds ?_⟩
  abel

/-- A step of a thread between runs of the function. -/
private theorem proceeds_of_level {activity : Activity} (pure : setting.IsPure)
    (given : task.IsPure setting.number setting.names)
    (within : setting.Within task inside start outer books)
    (leads : setting.Leads inside ⟨.run start, []⟩ deeds activity.anonymous)
    (serves : setting.Serves world storage) (holds : setting.Holds runs storage)
    (stepped : Activity.next thread world ⟨activity.focus, activity.frames ++ outer⟩ =
      .step after next) :
    setting.Proceeds task runs world storage (books + deeds) after next := by
  have here := Activity.isPure_anonymous.mp (leads.isPure pure (within.isPure pure given))
  obtain ⟨computation | outcome | _ | _, own⟩ := activity
  · by_cases applies : ∃ key, computation = .apply (.memoized setting.number) key
    · obtain ⟨key, rfl⟩ := applies
      cases stepped
      refine ⟨storage, [], _, 0, 0, serves, rfl, .applying within leads .seek, .quiet holds ?_⟩
      rw [Deed.ofLog_nil, zero_add, add_zero]
    · obtain ⟨after', next', entries, passes⟩ := pure.passes_run here (not_exists.mp applies) thread
        serves.functions outer
      obtain ⟨rfl, rfl⟩ := Progress.step.inj (passes.stepped.symm.trans stepped)
      exact proceeds_of_passes within leads serves holds passes
  · cases own with
    | cons frame own =>
        obtain ⟨next', passes⟩ := passes_answer here thread world outer
        obtain ⟨rfl, rfl⟩ := Progress.step.inj (passes.stepped.symm.trans stepped)
        exact proceeds_of_passes within leads serves holds passes
    | nil =>
        -- The run that the thread is inside of has come to its end.
        cases within with
        | task => cases stepped
        | @run inside start own outer books deeds' key place within leads' open' missing =>
            rw [List.nil_append, Activity.next_answer_computing] at stepped
            cases stepped
            refine ⟨storage, [.ended setting.number key outcome], _, 0, 0, serves.record _, rfl,
              .applying within leads' (.settle place open' missing leads), .quiet holds ?_⟩
            have ended : Deed.ofLog (setting.ending key outcome.anonymous) =
                Deed.ofLog [.ended setting.number key outcome] + Deed.ofLog
                  [.started setting.number key, setting.event key (.miss setting.policy)] := by
              rw [← Deed.ofLog_append]
              simp [ending, Deed.ofLog, Entry.unordered?]
            rw [ended]
            abel
  · exact here.elim
  · exact here.elim

/-- A step of a thread in an application of the function. -/
private theorem proceeds_of_applying
    (within : setting.Within task inside start outer books)
    (leads : setting.Leads inside ⟨.run start, []⟩ deeds
      ⟨.run (.apply (.memoized setting.number) key), own⟩)
    (stands : setting.Stands inside key stage more) (serves : setting.Serves world storage)
    (meets : setting.Meets inside key runs storage thread stage)
    (stepped : Activity.next thread world ⟨.applying setting.number key stage, own ++ outer⟩ =
      .step after next) :
    setting.Proceeds task runs world storage (books + deeds + more) after next := by
  simp only [Activity.next, serves.found] at stepped
  cases moved : storage.advance setting.cache.retention thread key stage with
  | wait =>
      rw [moved] at stepped
      cases stepped
  | go storage' event stage' =>
      rw [moved, Move.progress, World.setStorage_recordEvent] at stepped
      cases stepped
      obtain ⟨more', ran, hits, stands', posts⟩ := stands.of_go meets moved
      exact ⟨storage', _, _, ran, hits, serves.amend _ _, rfl, .applying within leads stands',
        posts.add_left _⟩
  | compute storage' place =>
      rw [moved] at stepped
      cases stepped
      obtain ⟨open', missing, rfl, holds⟩ := stands.of_compute meets moved
      have started : setting.Follows task ⟨.run (.apply setting.cache.underlying key),
          .computing setting.number key place :: (own ++ outer)⟩ _ :=
        .level ⟨.run (.apply setting.cache.underlying key), []⟩
          (.run place within leads open' missing) (.refl _)
      refine ⟨storage', [.started setting.number key], _, 0, 0, (serves.amend _ []).record _, rfl,
        started, .quiet holds ?_⟩
      rw [show [Entry.started setting.number key, setting.event key (.miss setting.policy)] =
        [.started setting.number key] ++ [setting.event key (.miss setting.policy)] from rfl,
        Deed.ofLog_append]
      abel
  | finish storage' outcome =>
      rw [moved] at stepped
      cases stepped
      obtain ⟨gives, holds⟩ := stands.of_finish meets moved
      have back : setting.Follows task ⟨.answer outcome, own ++ outer⟩ _ :=
        .level ⟨.answer outcome, own⟩ within (leads.trans (gives own))
      refine ⟨storage', [], _, 0, 0, serves.amend _ [], rfl, back, .quiet holds ?_⟩
      rw [Deed.ofLog_nil, zero_add, add_assoc]

/-- A step of a thread takes it further on the course of its task. -/
theorem Follows.of_next {activity : Activity} (follows : setting.Follows task activity books)
    (pure : setting.IsPure) (given : task.IsPure setting.number setting.names)
    (founded : WellFounded less) (descends : setting.Descends less)
    (serves : setting.Serves world storage) (holds : setting.Holds runs storage)
    {threads : List (List Phase)} {marks : List Mark}
    (sound : Cache.Sound { setting.cache with storage := storage } threads marks)
    (present : threads[thread]? = some (activity.phases setting.number))
    (stepped : activity.next thread world = .step after next) :
    setting.Proceeds task runs world storage books after next := by
  cases follows with
  | level activity within leads =>
      exact proceeds_of_level pure given within leads serves holds stepped
  | @applying _ _ own outer key stage _ _ _ within leads stands =>
      have exact := (leads.isPure pure (within.isPure pure given)).isExact
      rw [Activity.phases_applying, if_pos rfl] at present
      have blocks := within.blocks pure given founded descends leads
      exact proceeds_of_applying within leads stands serves
        ⟨exact, holds, threads, marks, _, sound, present, Frame.inward_phases _ _, blocks⟩ stepped

/-- A thread that follows the course of a task has come to the end of it when it is done. -/
theorem Follows.of_done {outcome : Outcome}
    (follows : setting.Follows task ⟨.answer outcome, []⟩ books) :
    setting.Leads false ⟨.run task.anonymous, []⟩ books ⟨.answer outcome.anonymous, []⟩ := by
  generalize ended : (⟨.answer outcome, []⟩ : Activity) = activity at follows
  cases follows with
  | level activity within leads =>
      obtain ⟨focus, own⟩ := activity
      simp only [Activity.mk.injEq, List.nil_eq, List.append_eq_nil_iff] at ended
      obtain ⟨rfl, rfl, rfl⟩ := ended
      cases within with
      | task => rwa [zero_add]
  | applying within leads stands => cases ended

end Step

end Setting

end FunctionValues
