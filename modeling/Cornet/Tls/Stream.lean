import Cornet.Machinery.Run
import Cornet.Machinery.Memory

/-!
# Tls/Stream — a reader and a writer on one TLS stream (`src/tls/stream.cc`)

    engine ──take_output──▸ io_bite_ ──send──▸ socket
    engine ◂──feed_input── io_bite_ ◂──recv── socket

Two coroutines on one thread, one inside `recv` and one inside `writev`.  A coroutine runs until it
awaits the socket; the kernel completes the operation on its own time, reading a send buffer or
filling a recv buffer **when it completes**; the coroutine goes on some time later.  Both directions
go through the one scratch `io_bite_`, which growth reallocates.  The record layer is the engine's:
a call of it answers with any step and any ciphertext.
-/

namespace Cornet.Tls

/-- `engine_step_t`. -/
inductive EngineStep
  | done | wantRead | wantWrite | closed | failed
  deriving DecidableEq, Repr

inductive Role
  | reader | writer
  deriving DecidableEq, Repr

def Role.other : Role → Role
  | .reader => .writer
  | .writer => .reader

/-- The call a coroutine is in; a `writev` with the plaintext it has yet to encrypt. -/
inductive Job
  | recv
  | writev (rest : List Byte)
  deriving DecidableEq, Repr

/-- What follows `flush_output`. -/
inductive Next
  | again
  | fill
  | fillIfDry
  | ret
  deriving DecidableEq, Repr

inductive Pc
  | idle
  /-- about to call `engine_.read` or `engine_.write` -/
  | engine (job : Job)
  /-- the head of the loop of `flush_output`, with its local `buf` -/
  | flush (buf : ℕ) (job : Job) (next : Next)
  /-- a send of `buf[off, n)` is in flight -/
  | sending (buf n off : ℕ) (job : Job) (next : Next)
  /-- it completed with this result -/
  | sent (buf n off : ℕ) (res : Option ℕ) (job : Job) (next : Next)
  /-- about to enter `fill_input` -/
  | fill (job : Job)
  /-- a recv into `buf[0, len)` is in flight -/
  | receiving (buf len : ℕ) (job : Job)
  /-- it completed with this result -/
  | received (res : Option ℕ) (job : Job)
  deriving DecidableEq, Repr

def kMinIoBiteSize : ℕ := 16 * 1024
def kMaxIoBiteSize : ℕ := 64 * 1024
def kRecordPayload : ℕ := 16 * 1024

/-- The stream, its scratch buffers by address (0 is null), and the two coroutines.  The last fields
record what crossed the engine and the socket: `lostOut`, that a send failed with bytes of its piece
left; `lostIn`, that the engine refused received bytes. -/
structure State where
  mem : ℕ → Mem := fun _ => Mem.zero
  /-- `io_bite_` -/
  bite : ℕ := 0
  /-- `io_bite_size_` -/
  size : ℕ := kMinIoBiteSize
  /-- the next address to be allocated -/
  fresh : ℕ := 1
  /-- the engine's output queue -/
  wbio : List Byte := []
  running : Option Role := none
  pc : Role → Pc := fun _ => .idle
  taken : List Byte := []
  sent : List Byte := []
  received : List Byte := []
  fed : List Byte := []
  lostOut : Bool := false
  lostIn : Bool := false

/-- What the kernel answers. -/
inductive Answer
  | sent (w : ℕ)
  | received (l : List Byte)
  | error
  deriving DecidableEq, Repr

/-- A call is made; the running coroutine's engine call answers; it goes on to its next await; the
kernel completes an operation; a coroutine whose operation has completed resumes (`fed`: whether the
engine accepts the bytes it is fed). -/
inductive Act
  | call (r : Role) (data : List Byte)
  | ssl (res : EngineStep) (out : List Byte)
  | go
  | complete (r : Role) (answer : Answer)
  | resume (r : Role) (fed : Bool)
  deriving DecidableEq, Repr

namespace State

variable (s : State)

def goto (r : Role) (pc : Pc) : State := { s with pc := Function.update s.pc r pc }

/-- The coroutine awaits, or returns. -/
def suspend (r : Role) (pc : Pc) : State := { s.goto r pc with running := none }

/-- A fresh scratch of the current size. -/
def alloc : State :=
  { s with mem := Function.update s.mem s.fresh Mem.zero, bite := s.fresh, fresh := s.fresh + 1 }

/-- `ensure_io_bite`. -/
def ensureIoBite : State := if s.bite = 0 then s.alloc else s

/-- `maybe_grow_io_bite`.  The old scratch is freed: what it holds from then on is `junk`. -/
def maybeGrowIoBite (junk : Mem) : State :=
  if s.size < kMaxIoBiteSize then
    { s with size := kMaxIoBiteSize, mem := Function.update s.mem s.bite junk }.alloc
  else s

/-- Entering `flush_output`. -/
def enterFlush (r : Role) (job : Job) (next : Next) : State :=
  let s := s.ensureIoBite
  s.goto r (.flush s.bite job next)

end State

/-- The plaintext of the next record, and what is left after it: `stage_` is filled from the iovecs
in order, up to `kRecordPayload`. -/
def afterRecord (rest : List Byte) : List Byte := rest.drop kRecordPayload

/-- `writev` with this plaintext left: the next record, or the final flush. -/
def writevFrom (s : State) (r : Role) (rest : List Byte) : State :=
  if rest = [] then s.enterFlush r (.writev []) .ret else s.goto r (.engine (.writev rest))

/-- The answer of `engine_.read` or `engine_.write`, with the ciphertext it left in the output
queue. -/
def afterEngine (s : State) (r : Role) (job : Job) (res : EngineStep) (out : List Byte) : State :=
  let s := { s with wbio := s.wbio ++ out }
  match job, res with
  | .recv, .wantRead => s.enterFlush r .recv .fill
  | .recv, .wantWrite => s.enterFlush r .recv .again
  | .writev rest, .done => writevFrom s r (afterRecord rest)
  | .writev rest, .wantRead => s.enterFlush r (.writev rest) .fillIfDry
  | .writev rest, .wantWrite => s.enterFlush r (.writev rest) .fillIfDry
  | _, _ => s.suspend r .idle

/-- After `flush_output` has drained the queue. -/
def afterFlush (s : State) (r : Role) (job : Job) : Next → State
  | .again => s.goto r (.engine job)
  | .fill => s.goto r (.fill job)
  | .fillIfDry => s.goto r (if s.wbio = [] then .fill job else .engine job)
  | .ret => s.suspend r .idle

/-- `take_output` into the local `buf`, then the first send of the piece. -/
def takeOutput (s : State) (r : Role) (buf : ℕ) (job : Job) (next : Next) : State :=
  let piece := s.wbio.take s.size
  { s with
    mem := Function.update s.mem buf ((s.mem buf).write 0 piece)
    wbio := s.wbio.drop s.size
    taken := s.taken ++ piece }.suspend r (.sending buf piece.length 0 job next)

/-- The running coroutine, between its engine calls, up to its next await. -/
def advance (s : State) (r : Role) : Option State :=
  match s.pc r with
  | .flush buf job next =>
    some (if s.wbio = [] then afterFlush s r job next else takeOutput s r buf job next)
  | .fill job =>
    let s := s.ensureIoBite
    some (s.suspend r (.receiving s.bite s.size job))
  | _ => none

/-- The kernel completes the operation a coroutine awaits. -/
def complete (s : State) (r : Role) (answer : Answer) : Option State :=
  match s.pc r, answer with
  | .sending buf n off job next, .sent w =>
    if off + w ≤ n then
      some { s.goto r (.sent buf n off (some w) job next) with
        sent := s.sent ++ (s.mem buf).read off w
        lostOut := s.lostOut || w == 0 }
    else none
  | .sending buf n off job next, .error =>
    some { s.goto r (.sent buf n off none job next) with lostOut := true }
  | .receiving buf len job, .received l =>
    if l.length ≤ len then
      some { s.goto r (.received (some l.length) job) with
        mem := Function.update s.mem buf ((s.mem buf).write 0 l)
        received := s.received ++ l }
    else none
  | .receiving _ _ job, .error => some (s.goto r (.received none job))
  | _, _ => none

/-- The send of a piece: the rest of it, or growth and the loop again. -/
def afterSend (junk : Mem) (s : State) (r : Role) (buf n off : ℕ) (job : Job)
    (next : Next) : State :=
  if off < n then s.suspend r (.sending buf n off job next)
  else if n = s.size then
    let s := s.maybeGrowIoBite junk
    s.goto r (.flush s.bite job next)
  else s.goto r (.flush buf job next)

/-- `feed_input` from the scratch as it is now, growth, and the loop of the caller again. -/
def afterRecv (junk : Mem) (s : State) (r : Role) (n : ℕ) (job : Job) (fed : Bool) : State :=
  if fed then
    let s := { s with fed := s.fed ++ (s.mem s.bite).read 0 n }
    let s := if n = s.size then s.maybeGrowIoBite junk else s
    s.goto r (.engine job)
  else { s.suspend r .idle with lostIn := true }

/-- A coroutine resumes with the result of its operation: an error, a send of nothing and the end of
the input return to the caller. -/
def resume (junk : Mem) (s : State) (r : Role) (fed : Bool) : Option State :=
  let s := { s with running := some r }
  match s.pc r with
  | .sent _ _ _ none _ _ => some (s.suspend r .idle)
  | .sent _ _ _ (some 0) _ _ => some (s.suspend r .idle)
  | .sent buf n off (some w) job next => some (afterSend junk s r buf n (off + w) job next)
  | .received none _ => some (s.suspend r .idle)
  | .received (some 0) _ => some (s.suspend r .idle)
  | .received (some n) job => some (afterRecv junk s r n job fed)
  | _ => none

/-- One step of the stream. -/
def step (junk : Mem) (s : State) : Act → Option State
  | .call r data =>
    if s.running = none ∧ s.pc r = .idle then
      let s := { s with running := some r }
      match r with
      | .reader => some (s.goto r (.engine .recv))
      | .writer => some (writevFrom s r data)
    else none
  | .ssl res out =>
    match s.running with
    | some r =>
      match s.pc r with
      | .engine job => some (afterEngine s r job res out)
      | _ => none
    | none => none
  | .go => s.running.bind (advance s)
  | .complete r answer => complete s r answer
  | .resume r fed => if s.running = none then resume junk s r fed else none

end Cornet.Tls
