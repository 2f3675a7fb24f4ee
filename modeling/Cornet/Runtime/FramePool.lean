import Cornet.Machinery.Run
import Cornet.Machinery.Chain

/-!
# Runtime/FramePool — the coroutine-frame pool, one memory access at a time
(`include/cornet/coroutine/frame_pool.h`)

    alloc:  drain the inbound stack ─▸ pop a freelist, or carve a chunk ─▸ stamp the header
    free:   read the owner ─▸ `owner->free_local_or_remote`: push locally, or CAS onto the inbound stack

Threads interleave at every access to memory another thread may touch.  A block is named by the
address of its header, whose first word is the owner while the block is out and the link while it is
on a list (`Ptr`).  `free` calls the method **on the owner**, so its test `owner == this` compares
the owner with itself: `freeEnter` carries that receiver.
-/

namespace Cornet.FramePool

/-- Threads; each has its own pool. -/
abbrev Tid := ℕ

/-- What the first word of a header may point to. -/
inductive Ptr
  | pool (p : Tid)
  | block (b : ℕ)
  deriving DecidableEq, Repr

def kHeaderSize : ℕ := 16
def kMinClassSize : ℕ := 64
def kMaxClassSize : ℕ := 2 ^ 14
def kChunkSize : ℕ := 2 ^ 16

/-- `std::bit_width`. -/
def bitWidth (n : ℕ) : ℕ := if n = 0 then 0 else Nat.log2 n + 1

/-- Class `i` covers sizes `(32 << i, 64 << i]`. -/
def classIndex (total : ℕ) : ℕ := bitWidth (total - 1) - 6

/-- `frame_pool_t`. -/
structure Pool where
  freelist : ℕ → Option Ptr := fun _ => none
  chunkCur : ℕ := 0
  chunkLeft : ℕ := 0
  remoteHead : Option Ptr := none

/-- Where a thread stands in `alloc` or `free`, with its locals. -/
inductive Pc
  | idle
  /-- about to exchange `remote_head_` with null -/
  | exchange (size : ℕ)
  /-- the loop of `drain_remote`, at node `n` -/
  | drain (size : ℕ) (n : Option Ptr)
  /-- `b` is linked to the head it saw; about to write `freelist_[idx]` -/
  | drainPut (size b idx : ℕ) (next : Option Ptr)
  /-- drained; about to read `freelist_[idx]` -/
  | take (size : ℕ)
  /-- `n` was non-null; about to read `n->next` -/
  | popLink (size idx b : ℕ)
  /-- about to write `freelist_[idx] = n->next` -/
  | popPut (size idx b : ℕ) (next : Option Ptr)
  /-- the block is off the list; about to write its header -/
  | stamp (size idx b : ℕ)
  /-- entering `free_local_or_remote` with this receiver -/
  | freeEnter (this : Tid) (b : ℕ)
  /-- linked to the local head it saw; about to write `freelist_[idx]` -/
  | freePut (this : Tid) (b idx : ℕ)
  /-- linked to the inbound head it saw; about to compare-exchange -/
  | freeCas (owner : Tid) (b : ℕ) (head : Option Ptr)
  deriving DecidableEq, Repr

/-- All pools, the headers in memory and the threads.  `live` lists the blocks handed out and not
freed; `home` remembers which pool carved a block. -/
structure State where
  pools : Tid → Pool := fun _ => {}
  word : ℕ → Option Ptr := fun _ => none
  classIdx : ℕ → ℕ := fun _ => 0
  frameSize : ℕ → ℕ := fun _ => 0
  /-- `::operator new` hands out addresses from here up -/
  brk : ℕ := 64
  pc : Tid → Pc := fun _ => .idle
  live : List ℕ := []
  home : ℕ → Option Tid := fun _ => none

namespace State

variable (s : State)

def goto (t : Tid) (pc : Pc) : State := { s with pc := Function.update s.pc t pc }

def setWord (b : ℕ) (v : Option Ptr) : State := { s with word := Function.update s.word b v }

def setPool (p : Tid) (pool : Pool) : State := { s with pools := Function.update s.pools p pool }

def setFreelist (p : Tid) (idx : ℕ) (v : Option Ptr) : State :=
  s.setPool p { s.pools p with freelist := Function.update (s.pools p).freelist idx v }

def setRemote (p : Tid) (v : Option Ptr) : State :=
  s.setPool p { s.pools p with remoteHead := v }

end State

/-- `new_chunk`: a fresh chunk, less its first 16 bytes. -/
def newChunk (s : State) (t : Tid) : State :=
  { s.setPool t { s.pools t with chunkCur := s.brk + 16, chunkLeft := kChunkSize - 16 } with
    brk := s.brk + kChunkSize }

/-- A chunk with room for a slot of class `idx`: `if (chunk_left_ < slot) new_chunk()`. -/
def refill (s : State) (t : Tid) (idx : ℕ) : State :=
  if (s.pools t).chunkLeft < kMinClassSize <<< idx then newChunk s t else s

/-- The carving branch of `alloc`, for slots of class `idx`. -/
def carve (s : State) (t : Tid) (size idx : ℕ) : State :=
  let slot := kMinClassSize <<< idx
  let s := refill s t idx
  let b := (s.pools t).chunkCur
  { s.setPool t { s.pools t with chunkCur := b + slot, chunkLeft := (s.pools t).chunkLeft - slot
                                   } with
    home := Function.update s.home b (some t)
    pc := Function.update s.pc t (.stamp size idx b) }

/-- `alloc_global`: a block with no owner. -/
def allocGlobal (s : State) (t : Tid) (size total : ℕ) : State :=
  { s with
    word := Function.update s.word s.brk none
    classIdx := Function.update s.classIdx s.brk 0
    frameSize := Function.update s.frameSize s.brk size
    live := s.brk :: s.live
    brk := s.brk + total
    pc := Function.update s.pc t .idle }

/-- `alloc` from the size test on, up to the first read of the freelist. -/
def takeBlock (s : State) (t : Tid) (size : ℕ) : Option State :=
  let total := size + kHeaderSize
  if kMaxClassSize < total then some (allocGlobal s t size total)
  else
    let idx := classIndex total
    match (s.pools t).freelist idx with
    | some (.block b) => some (s.goto t (.popLink size idx b))
    | none => some (carve s t size idx)
    | some (.pool _) => none

/-- The header writes that end `alloc`; the block goes to the caller. -/
def stampBlock (s : State) (t : Tid) (size idx b : ℕ) : State :=
  { s.setWord b (some (.pool t)) with
    classIdx := Function.update s.classIdx b idx
    frameSize := Function.update s.frameSize b size
    live := b :: s.live
    pc := Function.update s.pc t .idle }

/-- `free_local_or_remote`, called on the pool `this`, up to its first write. -/
def freeLocalOrRemote (s : State) (t this : Tid) (b : ℕ) : Option State :=
  match s.word b with
  | some (.pool owner) =>
    if owner = this then
      let idx := s.classIdx b
      some ((s.setWord b ((s.pools this).freelist idx)).goto t (.freePut this b idx))
    else
      let head := (s.pools owner).remoteHead
      some ((s.setWord b head).goto t (.freeCas owner b head))
  | _ => none

/-- `frame_pool_t::free`: the receiver of the method is the owner itself. -/
def freeBlock (s : State) (t : Tid) (b : ℕ) : Option State :=
  match s.word b with
  | none => some { s with live := s.live.erase b }
  | some (.pool owner) =>
    some ({ s with live := s.live.erase b }.goto t (.freeEnter owner b))
  | some (.block _) => none

/-- What a thread may do: call `alloc`, call `free` on a block that is out, or go on inside a call.
`go true` is a compare-exchange that fails spuriously. -/
inductive Act
  | alloc (size : ℕ)
  | free (b : ℕ)
  | go (spurious : Bool)
  deriving DecidableEq, Repr

/-- The next memory access of a thread inside a call. -/
def resume (s : State) (t : Tid) (spurious : Bool) : Option State :=
  match s.pc t with
  | .idle => none
  | .exchange size =>
    some ((s.setRemote t none).goto t (.drain size (s.pools t).remoteHead))
  | .drain size none => some (s.goto t (.take size))
  | .drain size (some (.block b)) =>
    let idx := s.classIdx b
    some ((s.setWord b ((s.pools t).freelist idx)).goto t (.drainPut size b idx (s.word b)))
  | .drain _ (some (.pool _)) => none
  | .drainPut size b idx next =>
    some ((s.setFreelist t idx (some (.block b))).goto t (.drain size next))
  | .take size => takeBlock s t size
  | .popLink size idx b => some (s.goto t (.popPut size idx b (s.word b)))
  | .popPut size idx b next => some ((s.setFreelist t idx next).goto t (.stamp size idx b))
  | .stamp size idx b => some (stampBlock s t size idx b)
  | .freeEnter this b => freeLocalOrRemote s t this b
  | .freePut this b idx => some ((s.setFreelist this idx (some (.block b))).goto t .idle)
  | .freeCas owner b head =>
    let now := (s.pools owner).remoteHead
    if now = head ∧ spurious = false then
      some ((s.setRemote owner (some (.block b))).goto t .idle)
    else some ((s.setWord b now).goto t (.freeCas owner b now))

/-- One step of the system. -/
def step (s : State) : Tid × Act → Option State
  | (t, .alloc size) =>
    if s.pc t = .idle then
      some (s.goto t (if (s.pools t).remoteHead = none then .take size else .exchange size))
    else none
  | (t, .free b) => if s.pc t = .idle ∧ b ∈ s.live then freeBlock s t b else none
  | (t, .go spurious) => resume s t spurious

end Cornet.FramePool
