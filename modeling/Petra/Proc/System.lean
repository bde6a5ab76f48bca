import Petra.Base.Multimap
import Petra.Base.Run
import Petra.Proc.Pid

/-! # Processes and threads

A process is an object that the process table finds by its identifier, and that calls go on
using when the table has another process there or none. Objects have numbers that are never
used again. A call takes its locks one after the other: each thread is in a call somewhere
between two sections, and the sections of different threads come in any order.
-/

-- The structure has the source's name, which is also the name of its module.
set_option linter.dupNamespace false

namespace Petra.Proc

open Base

inductive ProcState
  | alive
  | zombie
  deriving DecidableEq

inductive ExitStatus
  | exited (code : Nat)
  | signaled (signal : Nat) (coreDumped : Bool)
  | stopped (signal : Nat)
  | continued
  deriving DecidableEq

/-- A process, with what its lock protects. Children are known by their identifiers, threads by
their numbers. -/
structure Proc where
  pid : Nat
  state : ProcState
  ppid : Option Nat
  reaper : Option Nat
  children : List Nat
  threads : List Nat
  xstat : Option ExitStatus
  isReaper : Bool
  pgid : Option Nat
  sid : Option Nat
  stopStatus : Option ExitStatus

namespace Proc

/-- `Proc::new`. -/
def new (pid : Nat) (ppid : Option Nat) : Proc where
  pid := pid
  state := .alive
  ppid := ppid
  reaper := none
  children := []
  threads := []
  xstat := none
  isReaper := pid == pidInit
  pgid := none
  sid := none
  stopStatus := none

/-- The group, by default the one that the process leads. -/
def getPgid (p : Proc) : Nat := p.pgid.getD p.pid

/-- The session, by default the one that the process leads. -/
def getSid (p : Proc) : Nat := p.sid.getD p.pid

end Proc

structure Thread where
  tid : Nat
  /-- The number of its process. -/
  proc : Nat
  dead : Bool
  /-- It has been run, and its process may make calls with it. -/
  runs : Bool
  deriving DecidableEq

inductive IdType
  | all
  | pid (pid : Nat)
  | pgid (pgid : Nat)
  deriving DecidableEq

/-- What a wait asks for. -/
structure WaitOptions where
  idtype : IdType
  wnohang : Bool
  wexited : Bool
  wstopped : Bool
  wcontinued : Bool
  wnowait : Bool
  deriving DecidableEq

/-- Without a change to wait for, a wait is for an exit. -/
def WaitOptions.normal (w : WaitOptions) : WaitOptions :=
  if w.wexited || w.wstopped || w.wcontinued then w else { w with wexited := true }

/-- The section that a thread takes next, with the variables of its call. -/
inductive Call
  | idle
  -- `clone_proc`
  | cloneAllocate
  | cloneInherit (pid : Nat)
  | cloneInsert (child : Nat)
  | clonePush (child : Nat)
  -- `clone_thread`
  | tidFetch
  | tidStore
  | threadAdd (tid : Nat)
  -- `exit_thread`
  | exitThread (code : Nat)
  | die
  -- `exit1`
  | exitStart (status : ExitStatus)
  | exitReaper (children : List Nat) (ppid reaper : Option Nat)
  | exitThreads (children : List Nat) (reaper : Nat)
  | exitMark (threads children : List Nat) (reaper : Nat)
  | exitReparent (children : List Nat) (reaper : Nat)
  -- `kernel_wait`
  | waitChildren (w : WaitOptions)
  | waitFilter (w : WaitOptions) (children candidates : List Nat)
  | waitFind (w : WaitOptions) (candidates rest : List Nat)
  | waitRead (w : WaitOptions) (candidates rest : List Nat) (child : Nat)
  | waitClear (child : Nat)
  | waitSleep (w : WaitOptions) (candidates : List Nat)
  -- `proc_reap`
  | reapFind (pid : Nat)
  | reapCheck (child : Nat)
  | reapThreads (child : Nat) (status : ExitStatus)
  | reapRetain (child : Nat) (status : ExitStatus)
  | reapRemove (child : Nat) (status : ExitStatus)
  | reapFree (child : Nat) (status : ExitStatus)
  -- `set_pgid`
  | pgLeader (target pgid : Nat)
  | pgParent (target pgid : Nat)
  | pgFind (target pgid : Nat)
  | pgLeaderSid (target pgid leader : Nat)
  | pgOwnSid (target pgid sid : Nat)
  | pgOld (target pgid : Nat)
  | pgWrite (target pgid old : Nat)
  | pgUpdate (target pgid old : Nat)
  -- `setsid`
  | sidCheck
  | sidOldPgid
  | sidOldSid (oldPgid : Nat)
  | sidWrite (oldPgid oldSid : Nat)
  | sidUpdate (oldPgid oldSid : Nat)
  deriving DecidableEq

structure ProcSystem where
  procs : Nat → Proc
  threads : Nat → Thread
  calls : Nat → Call
  nextProc : Nat
  nextThread : Nat
  pids : PidAllocator
  /-- `NEXT_TID`. -/
  nextTid : Nat
  /-- The process table: the number of a process by its identifier. -/
  allproc : Nat → Option Nat
  pgrpMap : Multimap Nat Nat
  sessionMap : Multimap Nat Nat
  /-- History: the children whose exit was returned by a wait that reaps, with the status. -/
  returned : List (Nat × ExitStatus)
  /-- History: the processes that the kernel has made for itself. -/
  kernel : List Nat

/-- A call that a thread makes. -/
inductive Entry
  | cloneProc
  | cloneThread
  | exitThread (code : Nat)
  | exit (status : ExitStatus)
  | wait (w : WaitOptions)
  | setpgid (pid pgid : Nat)
  | setsid

inductive ProcOp
  /-- A thread enters the kernel. -/
  | enter (t : Nat) (entry : Entry)
  /-- A call takes its next section. -/
  | next (t : Nat)
  /-- `PR_SET_CHILD_SUBREAPER`. -/
  | subreaper (t : Nat) (on : Bool)
  /-- A signal stops or continues a process. -/
  | signal (p : Nat) (stopStatus : Option ExitStatus)
  /-- `kproc_create`. -/
  | kproc

/-- A call and its first sections. -/
def ProcOp.call (t : Nat) (entry : Entry) (sections : Nat) : List ProcOp :=
  .enter t entry :: List.replicate sections (.next t)

namespace ProcSystem

variable (s : ProcSystem)

def setCall (t : Nat) (call : Call) : ProcSystem :=
  { s with calls := Function.update s.calls t call }

def setProc (p : Nat) (proc : Proc) : ProcSystem :=
  { s with procs := Function.update s.procs p proc }

def setThread (t : Nat) (thread : Thread) : ProcSystem :=
  { s with threads := Function.update s.threads t thread }

/-- The process of a thread. -/
def self (t : Nat) : Nat := (s.threads t).proc

/-- `ProcessTable::insert`. -/
def allprocInsert (p : Nat) : ProcSystem :=
  let proc := s.procs p
  { s with
    pgrpMap := s.pgrpMap.add proc.getPgid proc.pid
    sessionMap := s.sessionMap.add proc.getSid proc.pid
    allproc := Function.update s.allproc proc.pid (some p) }

/-- `ProcessTable::remove`. -/
def allprocRemove (pid : Nat) : ProcSystem :=
  match s.allproc pid with
  | none => s
  | some p =>
    { s with
      allproc := Function.update s.allproc pid none
      pgrpMap := s.pgrpMap.remove (s.procs p).getPgid pid
      sessionMap := s.sessionMap.remove (s.procs p).getSid pid }

/-- `tree_find_reaper`. A walk over more processes than there are goes round for ever. -/
def treeFindReaper (s : ProcSystem) : Nat → Option Nat → Option Nat
  | _, none => some pidInit
  | 0, some _ => none
  | fuel + 1, some pid =>
    match s.allproc pid with
    | none => some pidInit
    | some p =>
      if (s.procs p).isReaper = true ∧ (s.procs p).state = .alive then some pid
      else s.treeFindReaper fuel (s.procs p).ppid

/-- The first loop of `tree_reparent_children`. -/
def setParents (reaper : Nat) (children : List Nat) : ProcSystem :=
  children.foldl
    (fun s pid =>
      match s.allproc pid with
      | none => s
      | some c => s.setProc c { s.procs c with ppid := some reaper }) s

/-- `tree_reparent_children`. -/
def treeReparentChildren (children : List Nat) (reaper : Nat) : ProcSystem :=
  let s := s.setParents reaper children
  match s.allproc reaper with
  | none => s
  | some r => s.setProc r { s.procs r with children := (s.procs r).children ++ children }

/-- Whether a wait selects a child. -/
def selects (idtype : IdType) (pid : Nat) : Bool :=
  match idtype with
  | .all => true
  | .pid target => pid == target
  | .pgid target =>
    match s.allproc pid with
    | none => false
    | some c => (s.procs c).getPgid == target

/-- What a wait sees of a child's stop status. -/
def stopEvent (w : WaitOptions) : Option ExitStatus → Bool
  | some (.stopped _) => w.wstopped
  | some .continued => w.wcontinued
  | _ => false

/-- Whether a waiter on this child is woken. -/
def waitEvent (w : WaitOptions) (pid : Nat) : Bool :=
  match s.allproc pid with
  | none => false
  | some c =>
    decide ((s.procs c).state = .zombie) && w.wexited || stopEvent w (s.procs c).stopStatus

/-- The sections that only read. Where the call goes on, `none` if it cannot yet. -/
def look (t : Nat) : Call → Option Call
  | .exitReaper children ppid reaper =>
    match reaper with
    | some r => some (.exitThreads children r)
    | none => (s.treeFindReaper (s.nextProc + 1) ppid).map (.exitThreads children)
  | .exitThreads children reaper =>
    some (.exitMark (s.procs (s.self t)).threads children reaper)
  | .waitChildren w =>
    -- `ECHILD`
    if (s.procs (s.self t)).children = [] then some .idle
    else some (.waitFilter w (s.procs (s.self t)).children [])
  | .waitFilter w [] candidates =>
    -- `ECHILD`
    if candidates = [] then some .idle else some (.waitFind w candidates candidates)
  | .waitFilter w (pid :: children) candidates =>
    some (.waitFilter w children
      (if s.selects w.idtype pid = true then candidates ++ [pid] else candidates))
  | .waitFind w candidates [] =>
    if w.wnohang = true then some .idle else some (.waitSleep w candidates)
  | .waitFind w candidates (pid :: rest) =>
    match s.allproc pid with
    | none => some (.waitFind w candidates rest)
    | some c => some (.waitRead w candidates rest c)
  | .waitRead w candidates rest c =>
    if stopEvent w (s.procs c).stopStatus = true then
      if w.wnowait = true then some .idle else some (.waitClear c)
    else if (s.procs c).state = .zombie ∧ w.wexited = true then
      if w.wnowait = true then some .idle else some (.reapFind (s.procs c).pid)
    else some (.waitFind w candidates rest)
  | .waitSleep w candidates =>
    if candidates.any (s.waitEvent w) then some (.waitChildren w) else none
  | .reapFind pid =>
    match s.allproc pid with
    -- `ESRCH`
    | none => some .idle
    | some c => some (.reapCheck c)
  | .reapCheck c =>
    -- `ECHILD`
    if (s.procs c).ppid ≠ some (s.procs (s.self t)).pid then some .idle
    -- `EINVAL`
    else if (s.procs c).state ≠ .zombie then some .idle
    else some (.reapThreads c ((s.procs c).xstat.getD (.exited 0)))
  | .pgLeader q g =>
    -- `EPERM`
    if (s.procs q).getSid = (s.procs q).pid then some .idle else some (.pgParent q g)
  | .pgParent q g =>
    -- `EPERM`
    if (s.procs (s.self t)).pid ≠ (s.procs q).pid ∧
        (s.procs q).pid ∉ (s.procs (s.self t)).children then some .idle
    else if g ≠ (s.procs q).pid then some (.pgFind q g)
    else some (.pgOld q g)
  | .pgFind q g =>
    match s.allproc g with
    -- `EPERM`
    | none => some .idle
    | some l => some (.pgLeaderSid q g l)
  | .pgLeaderSid q g l => some (.pgOwnSid q g (s.procs l).getSid)
  | .pgOwnSid q g sid =>
    -- `EPERM`
    if sid ≠ (s.procs q).getSid then some .idle else some (.pgOld q g)
  | .pgOld q g => some (.pgWrite q g (s.procs q).getPgid)
  | .sidCheck =>
    -- `EPERM`
    if (s.procs (s.self t)).getPgid = (s.procs (s.self t)).pid then some .idle
    else some .sidOldPgid
  | .sidOldPgid => some (.sidOldSid (s.procs (s.self t)).getPgid)
  | .sidOldSid oldPgid => some (.sidWrite oldPgid (s.procs (s.self t)).getSid)
  | _ => none

/-- A new process with its first thread, which the table does not have yet. -/
def newProc (proc : Proc) : ProcSystem :=
  { s with
    procs := Function.update s.procs s.nextProc { proc with threads := [s.nextThread] }
    threads := Function.update s.threads s.nextThread
      { tid := proc.pid, proc := s.nextProc, dead := false, runs := false }
    nextProc := s.nextProc + 1
    nextThread := s.nextThread + 1 }

/-- A new process of the kernel, which the table does not have yet. -/
def newKproc (pid : Nat) (pids : PidAllocator) : ProcSystem :=
  { s with pids := pids, kernel := s.kernel ++ [s.nextProc] }.newProc (Proc.new pid none)

/-- A new thread of a process, which is run at once. -/
def addThread (p tid : Nat) : ProcSystem :=
  { s with
    procs := Function.update s.procs p
      { s.procs p with threads := (s.procs p).threads ++ [s.nextThread] }
    threads := Function.update s.threads s.nextThread
      { tid := tid, proc := p, dead := false, runs := true }
    nextThread := s.nextThread + 1 }

def markDead (t : Nat) : ProcSystem :=
  s.setThread t { s.threads t with dead := true }

/-- Whether another thread of the process is alive. -/
def othersAlive (t : Nat) : Bool :=
  (s.procs (s.self t)).threads.any fun u =>
    (s.threads u).tid != (s.threads t).tid && !(s.threads u).dead

/-- The threads of a new process are run. -/
def runThreads (threads : List Nat) : ProcSystem :=
  threads.foldl (fun s u => s.setThread u { s.threads u with runs := true }) s

/-- A section that does not only read. -/
def act (t : Nat) : Call → Option ProcSystem
  | .cloneAllocate =>
    match s.pids.allocate with
    | .error _ => some (s.setCall t .idle)
    | .ok (pid, pids) => some ({ s with pids := pids }.setCall t (.cloneInherit pid))
  | .cloneInherit pid =>
    let parent := s.procs (s.self t)
    let child := { Proc.new pid (some parent.pid) with
      pgid := some parent.getPgid, sid := some parent.getSid }
    some ((s.newProc child).setCall t (.cloneInsert s.nextProc))
  | .cloneInsert c => some ((s.allprocInsert c).setCall t (.clonePush c))
  | .clonePush c =>
    let p := s.self t
    let s := s.setProc p { s.procs p with children := (s.procs p).children ++ [(s.procs c).pid] }
    some ((s.runThreads (s.procs c).threads).setCall t .idle)
  | .tidFetch =>
    let raw := s.nextTid
    let s := { s with nextTid := (raw + 1) % 2 ^ 32 }
    some (s.setCall t (if raw > tidMax then .tidStore else .threadAdd raw))
  | .tidStore => some ({ s with nextTid := tidFirst }.setCall t (.threadAdd tidFirst))
  | .threadAdd tid => some ((s.addThread (s.self t) tid).setCall t .idle)
  | .exitThread code =>
    let p := s.self t
    if (s.procs p).state = .zombie then some (s.setCall t .die)
    else if s.othersAlive t = true then
      some ((s.setProc p { s.procs p with
        threads := (s.procs p).threads.filter fun u =>
          (s.threads u).tid ≠ (s.threads t).tid }).setCall t .die)
    else some (s.setCall t (.exitStart (.exited code)))
  | .die => some ((s.markDead t).setCall t .idle)
  | .exitStart status =>
    let p := s.self t
    if (s.procs p).state = .zombie then some (s.setCall t .die)
    else
      some ((s.setProc p { s.procs p with
        state := .zombie, xstat := some status, children := [] }).setCall t
          (.exitReaper (s.procs p).children (s.procs p).ppid (s.procs p).reaper))
  | .exitMark (u :: threads) children reaper =>
    some ((s.markDead u).setCall t (.exitMark threads children reaper))
  | .exitMark [] children reaper =>
    some ((s.markDead t).setCall t (.exitReparent children reaper))
  | .exitReparent children reaper =>
    if children = [] then some (s.setCall t .idle)
    else some ((s.treeReparentChildren children reaper).setCall t .idle)
  | .waitClear c => some ((s.setProc c { s.procs c with stopStatus := none }).setCall t .idle)
  | .reapThreads c status =>
    some ((s.setProc c { s.procs c with threads := [] }).setCall t (.reapRetain c status))
  | .reapRetain c status =>
    let p := s.self t
    some ((s.setProc p { s.procs p with
      children := (s.procs p).children.filter fun pid => pid ≠ (s.procs c).pid }).setCall t
        (.reapRemove c status))
  | .reapRemove c status =>
    some ((s.allprocRemove (s.procs c).pid).setCall t (.reapFree c status))
  | .reapFree c status =>
    some ({ s with
      pids := s.pids.free (s.procs c).pid
      returned := s.returned ++ [(c, status)] }.setCall t .idle)
  | .pgWrite q g old =>
    some ((s.setProc q { s.procs q with pgid := some g }).setCall t (.pgUpdate q g old))
  | .pgUpdate q g old =>
    some ({ s with pgrpMap := s.pgrpMap.move (s.procs q).pid old g }.setCall t .idle)
  | .sidWrite oldPgid oldSid =>
    let p := s.self t
    some ((s.setProc p { s.procs p with
      sid := some (s.procs p).pid, pgid := some (s.procs p).pid }).setCall t
        (.sidUpdate oldPgid oldSid))
  | .sidUpdate oldPgid oldSid =>
    let pid := (s.procs (s.self t)).pid
    some ({ s with
      pgrpMap := s.pgrpMap.move pid oldPgid pid
      sessionMap := s.sessionMap.move pid oldSid pid }.setCall t .idle)
  | _ => none

/-- The next section of a call. -/
def nextSection (t : Nat) : Option ProcSystem :=
  match s.look t (s.calls t) with
  | some call => some (s.setCall t call)
  | none => s.act t (s.calls t)

/-- Where a call starts. `setpgid` finds its target first. -/
def entry (t : Nat) : Entry → Call
  | .cloneProc => .cloneAllocate
  | .cloneThread => .tidFetch
  | .exitThread code => .exitThread code
  | .exit status => .exitStart status
  | .wait w => .waitChildren w.normal
  | .setpgid pid pgid =>
    let target :=
      if pid = 0 ∨ pid = (s.procs (s.self t)).pid then some (s.self t) else s.allproc pid
    match target with
    | none => .idle
    | some q => .pgLeader q (if pgid = 0 then (s.procs q).pid else pgid)
  | .setsid => .sidCheck

/-- One section of one call. A thread that is not there, has not been run or is dead enters no
call, and a section that has to wait is not a step. -/
def step : ProcOp → Except Unit ProcSystem
  | .enter t e =>
    if t < s.nextThread ∧ (s.threads t).runs = true ∧ (s.threads t).dead = false ∧
        s.calls t = .idle then
      .ok (s.setCall t (s.entry t e))
    else .error ()
  | .next t =>
    match s.nextSection t with
    | some s' => .ok s'
    | none => .error ()
  | .subreaper t on =>
    if t < s.nextThread ∧ (s.threads t).runs = true ∧ (s.threads t).dead = false ∧
        s.calls t = .idle then
      let proc := s.procs (s.self t)
      .ok (s.setProc (s.self t) { proc with
        isReaper := on, reaper := if on then some proc.pid else none })
    else .error ()
  | .signal p stopStatus =>
    if p < s.nextProc then .ok (s.setProc p { s.procs p with stopStatus := stopStatus })
    else .error ()
  | .kproc =>
    match s.pids.allocate with
    | .error _ => .ok s
    | .ok (pid, pids) => .ok ((s.newKproc pid pids).allprocInsert s.nextProc)

/-- Init, with its thread. -/
def boot : ProcSystem where
  procs := fun _ => { Proc.new pidInit none with threads := [0] }
  threads := fun _ => { tid := pidInit, proc := 0, dead := false, runs := true }
  calls := fun _ => .idle
  nextProc := 1
  nextThread := 1
  pids := .new
  nextTid := tidFirst
  allproc := fun pid => if pid = pidInit then some 0 else none
  pgrpMap := Multimap.empty.add pidInit pidInit
  sessionMap := Multimap.empty.add pidInit pidInit
  returned := []
  kernel := []

end ProcSystem

end Petra.Proc
