import WorkQueue.Proofs.Scheduler.Keeps
import WorkQueue.Proofs.Scheduler.Opened

/-!
# Sessions

A session is what a scheduler is put through in the course of time: a list of `Move`s. Most of them
ask the scheduler for something (`Verb`), and an error does not end the session. Between two verbs
the store may come to refuse writes or grant them again, the caches may be given up, and the
scheduler may be opened again on its store.

`Move.playAll` carries out a session and gives its `Exchange`s: each verb with its reply and the
store before and after it. It fails only if the scheduler cannot be opened again.
-/

namespace WorkQueue

/-- Whether a command is one verb of the scheduler, answered from what it keeps. A drain is a loop
of verbs, and giving up the caches is a move of its own. -/
def Command.IsVerb {W J : Type} : Command W J → Prop
  | .execute _ _ | .disableCaching => False
  | _ => True

/-- The ids whose buckets a command uses. -/
def Command.buckets {W J : Type} : Command W J → List JobId
  | .addDependency dependency _ | .removeDependents dependency => [dependency]
  | _ => []

namespace Scheduler

/-- A verb of the scheduler with its arguments. -/
abbrev Verb (J : Type) := { command : Command Unit J // command.IsVerb }

/-- A verb with its reply and the store before and after it. -/
structure Exchange (J : Type) where
  verb : Verb J
  before : Store
  reply : Except Error (Reply J)
  after : Store

/-- What a session consists of. -/
inductive Move (J : Type) where
  | ask (verb : Verb J)
  /-- From now on the store grants so many writes, or all. -/
  | grant (left : Option Nat)
  | disableCaching
  | reopen (options : Options) (metrics : Option (CacheMetrics × CacheMetrics))

open Runs (Preserves)

variable {J : Type}

/-- Puts the scheduler that the store holds in place of the one in memory. -/
def restart (parse : Parser J) (options : Options)
    (metrics : Option (CacheMetrics × CacheMetrics)) : LiveM (Scheduler J) Unit :=
  LiveM.renew fun _ => return ((), ← load parse options metrics)

theorem restart_run {parse : Parser J} {options : Options}
    {metrics : Option (CacheMetrics × CacheMetrics)} {live : Live (Scheduler J)}
    {scheduler : Scheduler J} {t : Store}
    (h : load parse options metrics live.store = .ok scheduler t) :
    restart parse options metrics live = .ok () ⟨scheduler, t⟩ := by
  rw [restart, LiveM.renew, Runs.bind_of_ok h]
  rfl

variable [Job J]

/-- Carries out a verb. -/
def Verb.run (verb : Verb J) : LiveM (Scheduler J) (Reply J) := fun live =>
  match verb.1.perform ((), live) with
  | .ok reply s => .ok reply s.2
  | .error e s => .error e s.2

/-- A verb as an action on the scheduler alone. -/
theorem Verb.run_eq {verb : Verb J} {x : LiveM (Scheduler J) (Reply J)}
    (h : verb.1.perform = DrainM.onQueue x) : verb.run = x := by
  funext live
  rw [Verb.run, h, DrainM.onQueue]
  cases x live <;> rfl

/-- What the command of a verb keeps, the verb keeps. -/
theorem Verb.preserves {P : Live (Scheduler J) → Prop} {verb : Verb J}
    (h : Preserves (fun s => P s.2) verb.1.perform) : Preserves P verb.run := by
  intro live hlive
  have hfinal := h ((), live) hlive
  rw [Verb.run]
  cases hx : verb.1.perform ((), live) <;> rw [hx] at hfinal <;> exact hfinal

/-- Whether a verb only reads. -/
def Verb.Reads (verb : Verb J) : Prop :=
  match verb.1 with
  | .hasJob _ | .hasRunnable | .runnableIds | .missingIds | .missingCount | .pendingCount => True
  | _ => False

/-- A verb that only reads keeps everything as it is. -/
theorem Verb.preserves_of_reads {P : Live (Scheduler J) → Prop} {verb : Verb J} (h : verb.Reads) :
    Preserves P verb.run := by
  obtain ⟨command, hverb⟩ := verb
  refine Verb.preserves ?_
  cases command with
  | hasJob id => exact preserves_onQueue ((preserves_hasJob id).bind fun _ => .pure _)
  | hasRunnable => exact preserves_onQueue (preserves_hasRunnable.bind fun _ => .pure _)
  | runnableIds => exact preserves_onQueue (preserves_ids.bind fun _ => .pure _)
  | missingIds => exact preserves_onQueue (preserves_ids.bind fun _ => .pure _)
  | missingCount => exact fun _ h => h
  | pendingCount => exact fun _ h => h
  | _ => exact h.elim

/-- Carries out a verb, whatever comes of it. -/
def Verb.attempt (verb : Verb J) : LiveM (Scheduler J) (Exchange J) := fun live =>
  match verb.run live with
  | .ok reply t => .ok ⟨verb, live.store, .ok reply, t.store⟩ t
  | .error e t => .ok ⟨verb, live.store, .error e, t.store⟩ t

theorem Verb.final_attempt (verb : Verb J) (live : Live (Scheduler J)) :
    Runs.final (verb.attempt live) = Runs.final (verb.run live) := by
  rw [Verb.attempt]
  cases verb.run live <;> rfl

namespace Move

/-- Carries out a move. -/
def play (parse : Parser J) : Move J → LiveM (Scheduler J) (List (Exchange J))
  | ask verb => return [← verb.attempt]
  | grant left => fun live => .ok [] (live.withWrites left)
  | disableCaching => do Scheduler.disableCaching; return []
  | reopen options metrics => do restart parse options metrics; return []

/-- Carries out moves, one after the other. -/
def playAll (parse : Parser J) : List (Move J) → LiveM (Scheduler J) (List (Exchange J))
  | [] => return []
  | move :: rest => return (← play parse move) ++ (← playAll parse rest)

omit [Job J] in
/-- The ids whose buckets a move uses. -/
def buckets : Move J → List JobId
  | ask verb => verb.1.buckets
  | _ => []

/-- A job that a move stores is read back from its bytes. -/
def Faithful (parse : Parser J) : Move J → Prop
  | ask verb => verb.1.Faithful parse
  | _ => True

omit [Job J] in
/-- Whether a move opens the scheduler again. -/
def isReopen : Move J → Bool
  | reopen _ _ => true
  | _ => false

omit [Job J] in
/-- Whether a move gives up the caches. -/
def isDisabling : Move J → Bool
  | disableCaching => true
  | _ => false

end Move

end Scheduler

end WorkQueue
