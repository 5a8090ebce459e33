import Mathlib.Logic.Function.Basic
import Toktier.Lib.Utf8

/-!
# The scheduler of the worker pool

Requests become tasks: one task, or one for each chunk of a long text. A task waits in the
queue of its home worker or in the shared queue; an idle worker is given one task at a time
through a queue of its own, and answers into the queue of the collector. The collector notes
the answers, looks for dead workers and overdue requests, hands out further tasks, and calls
back for the requests that are finished once it has let go of the lock. Closing fails what is
left.

The heaps are one list, in which the home of a task tells its heap. Priorities come from
clocks and estimates and are left open, and so is what a worker answers. A step is what
happens between two points where another thread or process can come in.

## Main definitions

* `Task`, `Request`, `Result`: the work, and what is handed back.
* `World`: the scheduler, its workers and queues, with what was answered and called back.
* `World.step`: one act of a caller, the collector, a closing thread or a worker.
* `Reach`: the states that allowed acts reach.
-/
namespace Toktier.Sched

open Toktier.Lib

inductive Kind
  | free
  | session
  | auto
  | chunk
  | chunked
  deriving DecidableEq

structure Task where
  rid : ℕ
  index : ℕ
  kind : Kind
  text : Text
  key : Option Text
  home : Option ℕ
  order : ℤ
  seq : ℕ
  deriving DecidableEq

structure Request where
  rid : ℕ
  kind : Kind
  key : Option Text
  tasks : List Task
  parts : ℕ → Option (List ℤ)
  nDone : ℕ
  tFirst : Option ℕ
  failed : Option String
  finished : Bool

/-- What one request got back from the pool. -/
structure Result where
  ids : Option (List ℤ)
  error : Option String
  how : Kind
  k : ℕ

/-- What the pool and the policy are given. A planner can raise, and a set of workers is gone
through in some order. -/
structure Config where
  workers : ℕ
  chunkMinChars : ℕ
  chunkTarget : ℕ
  kmax : ℕ
  idleRule : Bool
  affinity : Bool
  workerTimeout : ℕ
  planner : Option (Text → ℕ → Option (List (ℕ × ℕ)))
  crc32 : Text → ℕ
  setOrder : List ℕ → List ℕ
  setOrder_perm : ∀ l, (setOrder l).Perm l

/-- A call of `submit`. -/
structure Submission where
  text : Text
  key : Option Text
  kind : Kind
  deriving DecidableEq

/-- A worker process: its input queue and the task it encodes. -/
structure Worker where
  up : Bool
  qin : List Task
  busy : Option Task

abbrev Answer := Except String (List ℤ)

/-- `("done", rid, index, wid, …)` -/
structure Message where
  rid : ℕ
  index : ℕ
  wid : ℕ
  answer : Answer
  deriving DecidableEq

/-- Where the collector thread stands. -/
inductive Collector
  | top
  | waiting
  | finishing
  | exited
  deriving DecidableEq

structure World where
  alive : List ℕ
  dead : List ℕ
  queue : List Task
  seq : ℕ
  idle : List ℕ
  inflight : ℕ → Option Task
  reqs : ℕ → Option Request
  nextRid : ℕ
  closed : Bool
  stop : Bool
  workers : ℕ → Worker
  qres : List Message
  /-- The calls of `submit` that have found the scheduler active. -/
  submits : List Submission
  collector : Collector
  /-- The requests that the collector is to call back for. -/
  finished : List Request
  /-- The threads in `close` that have found it open, and those about to take the lock. -/
  closers : ℕ
  lockers : ℕ
  /-- The requests that a closing thread is to call back for. -/
  pending : List Request
  /-- Whether closing has emptied the table of requests. -/
  drained : Bool
  /-- The numbers that `submit` has returned. -/
  accepted : List ℕ
  calls : List (ℕ × Result)
  /-- The tasks that were answered. -/
  log : List (Task × Answer)
  /-- The texts that a request was cut into. -/
  chunks : ℕ → List Text

/-! ### Results -/

/-- The request with the answer of a message. -/
def Request.answered (r : Request) (m : Message) : Request :=
  match m.answer with
  | .error error =>
    { r with
      nDone := r.nDone + 1
      failed := some ("worker " ++ toString m.wid ++ ": " ++ error) }
  | .ok payload =>
    { r with nDone := r.nDone + 1, parts := Function.update r.parts m.index (some payload) }


/-- The ids of a request that has not failed: its parts in the order of their index. -/
def assemble (parts : ℕ → Option (List ℤ)) (k : ℕ) : Option (List ℤ) :=
  ((List.range k).mapM parts).map List.flatten

/-- `_finish` -/
def finish (r : Request) : Result :=
  match r.failed with
  | some error => ⟨none, some error, r.kind, r.tasks.length⟩
  | none =>
    match assemble r.parts r.tasks.length with
    | some ids => ⟨some ids, none, r.kind, r.tasks.length⟩
    | none => ⟨none, some "assembly: KeyError", r.kind, r.tasks.length⟩

/-! ### The policy -/

/-- The worker that owns the session state of `key`; raises when no worker is alive. -/
def homeOf (cfg : Config) (alive : List ℕ) (key : Text) : Option ℕ :=
  alive[cfg.crc32 key % alive.length]?

def chooseK (cfg : Config) (chars alive nIdle : ℕ) : ℕ :=
  if cfg.planner.isNone ∨ chars < cfg.chunkMinChars then 1
  else
    let k := (chars + cfg.chunkTarget - 1) / cfg.chunkTarget
    let k := min k (min cfg.kmax alive)
    let k := if cfg.idleRule then min k (max 1 nIdle) else k
    max 1 k

/-- The spans that a stateless text is cut into. -/
def spansOf (cfg : Config) (text : Text) (alive nIdle : ℕ) : Option (List (ℕ × ℕ)) :=
  let k := chooseK cfg text.length alive nIdle
  match cfg.planner with
  | some planner => if k > 1 then planner text k else some [(0, text.length)]
  | none => some [(0, text.length)]

/-- The kind and the tasks of a request that arrives; the rest of `arrive` queues them. -/
def tasksOf (cfg : Config) (alive : List ℕ) (nIdle : ℕ) (order : ℕ → ℤ) (req : Request)
    (text : Text) : Option (Kind × List Task) :=
  if req.kind = .session ∨ req.kind = .auto then do
    let key ← req.key
    let home ← homeOf cfg alive key
    some (req.kind, [⟨req.rid, 0, req.kind, text, some key, some home, order 0, 0⟩])
  else do
    let spans ← spansOf cfg text alive.length nIdle
    if spans.length > 1 then
      some (.chunked, spans.zipIdx.map fun s =>
        ⟨req.rid, s.2, .chunk, (text.take s.1.2).drop s.1.1, none, none, order s.2, 0⟩)
    else some (.free, [⟨req.rid, 0, .free, text, none, none, order 0, 0⟩])

/-- The least entry by order and then by sequence number. -/
def heapMin : List Task → Option Task
  | [] => none
  | t :: ts =>
    match heapMin ts with
    | none => some t
    | some u => if t.order < u.order ∨ (t.order = u.order ∧ t.seq < u.seq) then some t else some u

namespace World

variable (cfg : Config) (w : World)

def active : Bool := !w.closed && !w.alive.isEmpty

/-- `_push` -/
def push (t : Task) : World :=
  { w with seq := w.seq + 1, queue := { t with seq := w.seq + 1 } :: w.queue }

/-- Put a task back; a task whose home has died gets a new one. -/
def requeue (t : Task) : World :=
  if t.home.any (fun home => home ∉ w.alive) then
    w.push { t with home := homeOf cfg w.alive (t.key.getD []) }
  else w.push t

/-- The task that a worker takes next: of its own queue and the shared one, the first. -/
def nextFor (wid : ℕ) : Option Task :=
  if wid ∉ w.alive then none
  else
    match heapMin (w.queue.filter fun t => t.home = some wid),
      heapMin (w.queue.filter fun t => t.home = none) with
    | some own, some shared => if own.order ≤ shared.order then some own else some shared
    | some own, none => some own
    | none, shared => shared

/-! ### The scheduler under its lock -/

/-- Give the worker its next task, if there is one. -/
def dispatchOne (now : ℕ) (wid : ℕ) : World :=
  match w.nextFor wid with
  | none => w
  | some t =>
    { w with
      queue := w.queue.erase t
      idle := w.idle.filter (· ≠ wid)
      inflight := Function.update w.inflight wid (some t)
      reqs := Function.update w.reqs t.rid ((w.reqs t.rid).map fun r =>
        if r.tFirst.isNone then { r with tFirst := some now } else r)
      workers := Function.update w.workers wid
        { w.workers wid with qin := (w.workers wid).qin ++ [t] } }

/-- `_dispatch` -/
def dispatch (now : ℕ) : World :=
  (cfg.setOrder w.idle).foldl (fun w wid => w.dispatchOne now wid) w

/-- The kind and the key that a submission is served with. -/
def served (s : Submission) : Kind × Option Text :=
  if s.kind = .session ∧ s.key.isSome ∧ cfg.affinity then (.session, s.key)
  else if s.kind = .auto then
    (.auto, some ("auto:".toList ++ (toString (cfg.crc32 (s.text.take 4096))).toList))
  else (.free, s.key)

/-- The locked part of `submit`. When a rule raises, the request stays in the table. -/
def submit (s : Submission) (now : ℕ) (order : ℕ → ℤ) : World :=
  let rid := w.nextRid
  let req : Request :=
    ⟨rid, (served cfg s).1, (served cfg s).2, [], fun _ => none, 0, none, none, false⟩
  let w := { w with nextRid := rid + 1, reqs := Function.update w.reqs rid (some req) }
  match tasksOf cfg w.alive w.idle.length order req s.text with
  | none => w
  | some (kind, tasks) =>
    let w := { w with
      reqs := Function.update w.reqs rid (some { req with kind := kind, tasks := tasks })
      chunks := Function.update w.chunks rid (tasks.map Task.text)
      accepted := rid :: w.accepted }
    (tasks.foldl push w).dispatch cfg now

/-- Take a finished request out of the table. -/
def settle (r : Request) : World :=
  { w with
    reqs := Function.update w.reqs r.rid none
    finished := w.finished ++ [{ r with finished := true }] }

/-- `_on_done` -/
def onDone (m : Message) : World :=
  let w := { w with
    inflight := Function.update w.inflight m.wid none
    idle := m.wid :: w.idle.filter (· ≠ m.wid) }
  match w.reqs m.rid with
  | none => w
  | some r =>
    if r.finished then w
    else
      let r := r.answered m
      if r.failed.isSome ∨ r.nDone = r.tasks.length then w.settle r
      else { w with reqs := Function.update w.reqs m.rid (some r) }

/-- Fail a request that is still in the table. -/
def fail (error : String) (rid : ℕ) : World :=
  match w.reqs rid with
  | none => w
  | some r => if r.finished then w else w.settle { r with failed := some error }

/-- A dead worker fails the request of the task it had; its queued tasks get a new home. -/
def sweepWorker (wid : ℕ) : World :=
  if wid ∈ w.dead ∨ (w.workers wid).up then w
  else
    let task := w.inflight wid
    let w := { w with
      dead := wid :: w.dead
      idle := w.idle.filter (· ≠ wid)
      alive := w.alive.filter (· ≠ wid)
      inflight := Function.update w.inflight wid none }
    let w :=
      match task with
      | none => w
      | some t => w.fail ("worker " ++ toString wid ++ " died") t.rid
    let stranded := w.queue.filter fun t => t.home = some wid
    let w := { w with queue := w.queue.filter fun t => t.home ≠ some wid }
    if w.alive = [] then stranded.foldl (fun w t => w.fail "no live worker" t.rid) w
    else stranded.foldl (requeue cfg) w

/-- An overdue request fails. -/
def sweepRequest (now : ℕ) (rid : ℕ) : World :=
  match w.reqs rid with
  | none => w
  | some r =>
    if r.tFirst.any fun t => t + cfg.workerTimeout < now then
      w.fail ("no answer within " ++ toString cfg.workerTimeout ++ " s") rid
    else w

/-- `_sweep` -/
def sweep (now : ℕ) : World :=
  let w := (List.range cfg.workers).foldl (sweepWorker cfg) w
  if cfg.workerTimeout > 0 then
    (List.range w.nextRid).foldl (fun w rid => w.sweepRequest cfg now rid) w
  else w

/-- One turn of the collector under the lock. -/
def collect (m : Option Message) (sweeps : Bool) (now : ℕ) : World :=
  let w :=
    match m with
    | none => w
    | some m => { w with qres := w.qres.erase m }.onDone m
  let w := if sweeps then w.sweep cfg now else w
  { w.dispatch cfg now with collector := .finishing }

/-- The locked part of `close`. -/
def drain : World :=
  { w with
    pending := w.pending ++ (((List.range w.nextRid).filterMap w.reqs).filter
      fun r => !r.finished).map fun r => { r with failed := some "closed", finished := true }
    reqs := fun _ => none
    drained := true }

/-- The callback of a request. -/
def callBack (r : Request) : World := { w with calls := w.calls ++ [(r.rid, finish r)] }

end World

/-! ### Acts -/

inductive Act
  /-- A caller finds the scheduler active. -/
  | check (s : Submission)
  /-- A caller takes the lock. -/
  | submit (s : Submission) (now : ℕ) (order : ℕ → ℤ)
  /-- The collector starts to wait for a message, or ends. -/
  | wait
  /-- The collector takes the lock, with a message or without one. -/
  | collect (m : Option Message) (sweeps : Bool) (now : ℕ)
  /-- The collector calls back, or is done with it. -/
  | finish
  /-- A thread finds the scheduler open. -/
  | closeCheck
  /-- It marks it closed. -/
  | closeSet
  /-- It takes the lock. -/
  | closeLock
  /-- It calls back. -/
  | closeFinish
  /-- A worker takes a task. -/
  | take (wid : ℕ)
  /-- A worker answers. -/
  | answer (wid : ℕ) (a : Answer)
  /-- A worker process ends, with what it had. -/
  | die (wid : ℕ)
  /-- A message of a dead worker that did not get through. -/
  | lose (m : Message)

namespace World

/-- One act; `none` when it is not possible. -/
def step (cfg : Config) (w : World) : Act → Option World
  | .check s => if w.active then some { w with submits := s :: w.submits } else none
  | .submit s now order =>
    if s ∈ w.submits then some ({ w with submits := w.submits.erase s }.submit cfg s now order)
    else none
  | .wait =>
    if w.collector = .top then
      some { w with collector := if w.stop then .exited else .waiting }
    else none
  | .collect m sweeps now =>
    if w.collector = .waiting ∧ ∀ x ∈ m, x ∈ w.qres then some (w.collect cfg m sweeps now)
    else none
  | .finish =>
    if w.collector = .finishing then
      match w.finished with
      | [] => some { w with collector := .top }
      | r :: rs => some ({ w with finished := rs }.callBack r)
    else none
  | .closeCheck => if w.closed then none else some { w with closers := w.closers + 1 }
  | .closeSet =>
    if w.closers > 0 then
      some { w with closers := w.closers - 1, closed := true, stop := true,
                    lockers := w.lockers + 1 }
    else none
  | .closeLock =>
    if w.lockers > 0 then some { w.drain with lockers := w.lockers - 1 } else none
  | .closeFinish =>
    match w.pending with
    | [] => none
    | r :: rs => some ({ w with pending := rs }.callBack r)
  | .take wid =>
    if (w.workers wid).up ∧ (w.workers wid).busy = none then
      match (w.workers wid).qin with
      | [] => none
      | t :: ts => some { w with workers := Function.update w.workers wid ⟨true, ts, some t⟩ }
    else none
  | .answer wid a =>
    if (w.workers wid).up then
      match (w.workers wid).busy with
      | none => none
      | some t =>
        some { w with
          workers := Function.update w.workers wid ⟨true, (w.workers wid).qin, none⟩
          qres := w.qres ++ [⟨t.rid, t.index, wid, a⟩]
          log := w.log ++ [(t, a)] }
    else none
  | .die wid =>
    if (w.workers wid).up then
      some { w with workers := Function.update w.workers wid ⟨false, [], none⟩ }
    else none
  | .lose m =>
    if m ∈ w.qres ∧ (w.workers m.wid).up = false then some { w with qres := w.qres.erase m }
    else none

/-- The acts one after another. -/
def run (cfg : Config) : World → List Act → Option World
  | w, [] => some w
  | w, a :: acts => (w.step cfg a).bind fun w => run cfg w acts

/-- The pool when every worker has loaded. -/
def start (cfg : Config) : World where
  alive := List.range cfg.workers
  dead := []
  queue := []
  seq := 0
  idle := List.range cfg.workers
  inflight := fun _ => none
  reqs := fun _ => none
  nextRid := 0
  closed := false
  stop := false
  workers := fun wid => ⟨decide (wid < cfg.workers), [], none⟩
  qres := []
  submits := []
  collector := .top
  finished := []
  closers := 0
  lockers := 0
  pending := []
  drained := false
  accepted := []
  calls := []
  log := []
  chunks := fun _ => []

end World

/-- The states that acts which satisfy `ok` reach. -/
inductive Reach (cfg : Config) (ok : World → Act → Prop) : World → Prop
  | start : Reach cfg ok (World.start cfg)
  | step {w w' : World} (a : Act) (h : Reach cfg ok w) (hok : ok w a)
      (hs : w.step cfg a = some w') : Reach cfg ok w'

end Toktier.Sched
