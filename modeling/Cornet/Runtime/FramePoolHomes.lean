import Cornet.Runtime.FramePool

/-!
# Runtime/FramePoolHomes — a pool only ever names its own blocks

    words, freelists and locals of pool `p`  ⊆  `p` itself and the blocks `p` carved

`Homed` holds in **every** run, whatever the threads free.  Hence `free_local_or_remote` always
finds itself to be the owner (`move_of_freeLocalOrRemote`), the compare-exchange and the drain are
never reached, and what is left of the step function is a handful of moves (`Move`), from which
every invariant is proved.
-/

namespace Cornet.FramePool

open Function

/-! ## Chunk areas: carving is fresh -/

/-- The part of its current chunk a pool has not carved yet. -/
def Pool.owns (q : Pool) (b : ℕ) : Prop := q.chunkCur ≤ b ∧ b < q.chunkCur + q.chunkLeft

/-- Uncarved areas are allocated memory, and no two pools share any. -/
structure Areas (s : State) : Prop where
  lt_brk : ∀ {p b}, (s.pools p).owns b → b < s.brk
  disjoint : ∀ {p q b}, (s.pools p).owns b → (s.pools q).owns b → p = q

/-- An address that has been given out, to a pool or to a caller. -/
def Used (s : State) (b : ℕ) : Prop := b < s.brk ∧ ∀ p, ¬ (s.pools p).owns b

theorem classIndex_le {total : ℕ} (h : total ≤ kMaxClassSize) : classIndex total ≤ 8 := by
  simp only [classIndex, bitWidth]
  split
  · omega
  · rename_i h0
    have hlog : Nat.log2 (total - 1) < 14 := (Nat.log2_lt h0).mpr (by
      simp only [kMaxClassSize] at h
      omega)
    omega

theorem slot_le {idx : ℕ} (h : idx ≤ 8) : kMinClassSize <<< idx ≤ kChunkSize - 16 ∧
    0 < kMinClassSize <<< idx := by
  have h8 : 2 ^ idx ≤ 2 ^ 8 := Nat.pow_le_pow_right (by decide) h
  have h0 : 0 < 2 ^ idx := Nat.two_pow_pos idx
  simp only [kMinClassSize, kChunkSize, Nat.shiftLeft_eq]
  omega

@[simp] theorem owns_setFreelist (s : State) (p q : Tid) (idx b : ℕ) (v : Option Ptr) :
    ((s.setFreelist p idx v).pools q).owns b ↔ (s.pools q).owns b := by
  by_cases h : q = p
  · subst h
    simp [State.setFreelist, State.setPool, Pool.owns]
  · simp [State.setFreelist, State.setPool, update_of_ne h]

theorem newChunk_owns (s : State) (t p : Tid) (b : ℕ) :
    ((newChunk s t).pools p).owns b ↔
      if p = t then s.brk + 16 ≤ b ∧ b < s.brk + kChunkSize else (s.pools p).owns b := by
  by_cases h : p = t
  · subst h
    simp only [newChunk, State.setPool, Pool.owns, update_self, if_true, kChunkSize]
    omega
  · simp [newChunk, State.setPool, h]

theorem Areas.newChunk {s : State} (h : Areas s) (t : Tid) : Areas (newChunk s t) := by
  have hbrk : (FramePool.newChunk s t).brk = s.brk + kChunkSize := rfl
  have old : ∀ {p b}, p ≠ t → ((FramePool.newChunk s t).pools p).owns b → b < s.brk := by
    intro p b hp hb
    rw [newChunk_owns, if_neg hp] at hb
    exact h.lt_brk hb
  refine ⟨fun {p b} hb => ?_, fun {p q b} hp hq => ?_⟩
  · by_cases hpt : p = t
    · rw [newChunk_owns, if_pos hpt] at hb
      omega
    · have := old hpt hb
      omega
  · by_cases hpt : p = t <;> by_cases hqt : q = t
    · rw [hpt, hqt]
    · have := old hqt hq
      rw [newChunk_owns, if_pos hpt] at hp
      omega
    · have := old hpt hp
      rw [newChunk_owns, if_pos hqt] at hq
      omega
    · rw [newChunk_owns, if_neg hpt] at hp
      rw [newChunk_owns, if_neg hqt] at hq
      exact h.disjoint hp hq

theorem Used.newChunk {s : State} {b : ℕ} (h : Used s b) (t : Tid) : Used (newChunk s t) b := by
  refine ⟨?_, fun p hb => ?_⟩
  · have := h.1
    simp only [FramePool.newChunk]
    omega
  · rw [newChunk_owns] at hb
    split at hb
    · have := h.1
      omega
    · exact h.2 p hb

/-- The block `carve` cuts. -/
def carved (s : State) (t : Tid) (idx : ℕ) : ℕ := ((refill s t idx).pools t).chunkCur

section Carve

variable {s : State} {t : Tid} {idx : ℕ}

theorem Areas.refill (h : Areas s) : Areas (refill s t idx) := by
  unfold FramePool.refill
  split
  · exact h.newChunk t
  · exact h

theorem Used.refill {b : ℕ} (h : Used s b) : Used (refill s t idx) b := by
  unfold FramePool.refill
  split
  · exact h.newChunk t
  · exact h

theorem slot_le_refill (hidx : idx ≤ 8) :
    kMinClassSize <<< idx ≤ ((refill s t idx).pools t).chunkLeft := by
  unfold FramePool.refill
  split
  · have := (slot_le hidx).1
    simpa [newChunk, State.setPool] using this
  · omega

theorem refill_owns_carved (hidx : idx ≤ 8) : ((refill s t idx).pools t).owns (carved s t idx) := by
  have := (slot_le hidx).2
  have := slot_le_refill (s := s) (t := t) hidx
  exact ⟨le_rfl, by unfold carved; omega⟩

/-- **A carved block is new**: no address in use lies in the area it is cut from. -/
theorem not_used_carved (hidx : idx ≤ 8) : ¬ Used s (carved s t idx) :=
  fun h => h.refill.2 t (refill_owns_carved hidx)

/-- Carving takes its block out of the area and nothing else. -/
theorem carve_owns (h : Areas s) (size : ℕ) (hidx : idx ≤ 8) {p : Tid} {b : ℕ}
    (hb : ((carve s t size idx).pools p).owns b) :
    ((refill s t idx).pools p).owns b ∧ b ≠ carved s t idx := by
  have hslot := (slot_le hidx).2
  have hleft := slot_le_refill (s := s) (t := t) hidx
  change (Function.update (refill s t idx).pools t _ p).owns b at hb
  by_cases hp : p = t
  · subst hp
    simp only [update_self, Pool.owns] at hb
    unfold carved Pool.owns
    omega
  · rw [update_of_ne hp] at hb
    refine ⟨hb, ?_⟩
    rintro rfl
    exact hp (h.refill.disjoint hb (refill_owns_carved hidx))

theorem Areas.carve (h : Areas s) (size : ℕ) (hidx : idx ≤ 8) : Areas (carve s t size idx) :=
  ⟨fun hb => h.refill.lt_brk (carve_owns h size hidx hb).1,
    fun hp hq => h.refill.disjoint (carve_owns h size hidx hp).1 (carve_owns h size hidx hq).1⟩

theorem Used.carve {b : ℕ} (h : Areas s) (hu : Used s b) (size : ℕ) (hidx : idx ≤ 8) :
    Used (carve s t size idx) b :=
  ⟨hu.refill.1, fun p hb => hu.refill.2 p (carve_owns h size hidx hb).1⟩

theorem used_carved (h : Areas s) (size : ℕ) (hidx : idx ≤ 8) :
    Used (FramePool.carve s t size idx) (carved s t idx) :=
  ⟨h.refill.lt_brk (refill_owns_carved hidx), fun _ hb => (carve_owns h size hidx hb).2 rfl⟩

end Carve

/-! ## Homes: a pool only ever names its own blocks -/

/-- A pointer a pool may hold: to itself or to a block it carved. -/
def HomeOf (home : ℕ → Option Tid) (p : Tid) : Ptr → Prop
  | .pool q => q = p
  | .block b => home b = some p

/-- The blocks a thread's locals name have the home its next access takes them to have.  The drain
and the compare-exchange are not reached. -/
def PcHomed (home : ℕ → Option Tid) (t : Tid) : Pc → Prop
  | .idle | .take _ => True
  | .popLink _ _ b | .stamp _ _ b => home b = some t
  | .popPut _ _ b next => home b = some t ∧ ∀ v ∈ next, HomeOf home t v
  | .freeEnter this b | .freePut this b _ => home b = some this
  | .exchange _ | .drain _ _ | .drainPut _ _ _ _ | .freeCas _ _ _ => False

/-- Every word, list head and local of a pool names blocks that pool carved, and nothing is ever
published on an inbound stack. -/
structure Homed (s : State) : Prop where
  areas : Areas s
  used : ∀ {b p}, s.home b = some p → Used s b
  word : ∀ {b}, ∀ v ∈ s.word b, ∃ p, s.home b = some p ∧ HomeOf s.home p v
  freelist : ∀ {p idx}, ∀ v ∈ (s.pools p).freelist idx, HomeOf s.home p v
  remote : ∀ p, (s.pools p).remoteHead = none
  pc : ∀ t, PcHomed s.home t (s.pc t)

/-- A block's recorded owner is the pool that carved it. -/
theorem Homed.home_of_word {s : State} {b : ℕ} {q : Tid} (hs : Homed s)
    (h : s.word b = some (.pool q)) : s.home b = some q := by
  obtain ⟨p, hb, rfl⟩ := hs.word _ h
  exact hb

/-- What a step does, given that blocks are at home: the calls, and the accesses they go on with. -/
inductive Move (s : State) (t : Tid) : Act → State → Prop
  | callAlloc (size : ℕ) (hpc : s.pc t = .idle) : Move s t (.alloc size) (s.goto t (.take size))
  | callFree (b : ℕ) (o : Tid) (hpc : s.pc t = .idle) (hb : b ∈ s.live)
      (hw : s.word b = some (.pool o)) :
      Move s t (.free b) ({ s with live := s.live.erase b }.goto t (.freeEnter o b))
  | delete (b : ℕ) (hpc : s.pc t = .idle) (hb : b ∈ s.live) (hw : s.word b = none) :
      Move s t (.free b) { s with live := s.live.erase b }
  | global (size : ℕ) (w : Bool) (hpc : s.pc t = .take size) :
      Move s t (.go w) (allocGlobal s t size (size + kHeaderSize))
  | carve (size idx : ℕ) (w : Bool) (hpc : s.pc t = .take size) (hidx : idx ≤ 8) :
      Move s t (.go w) (carve s t size idx)
  | pop (size idx b : ℕ) (w : Bool) (hpc : s.pc t = .take size)
      (hfl : (s.pools t).freelist idx = some (.block b)) :
      Move s t (.go w) (s.goto t (.popLink size idx b))
  | link (size idx b : ℕ) (w : Bool) (hpc : s.pc t = .popLink size idx b) :
      Move s t (.go w) (s.goto t (.popPut size idx b (s.word b)))
  | unlink (size idx b : ℕ) (next : Option Ptr) (w : Bool)
    (hpc : s.pc t = .popPut size idx b next) :
      Move s t (.go w) ((s.setFreelist t idx next).goto t (.stamp size idx b))
  | stamp (size idx b : ℕ) (w : Bool) (hpc : s.pc t = .stamp size idx b) :
      Move s t (.go w) (stampBlock s t size idx b)
  | enter (o : Tid) (b : ℕ) (w : Bool) (hpc : s.pc t = .freeEnter o b)
      (hw : s.word b = some (.pool o)) :
      Move s t (.go w) ((s.setWord b ((s.pools o).freelist (s.classIdx b))).goto t
        (.freePut o b (s.classIdx b)))
  | put (o : Tid) (b idx : ℕ) (w : Bool) (hpc : s.pc t = .freePut o b idx) :
      Move s t (.go w) ((s.setFreelist o idx (some (.block b))).goto t .idle)

section Moves

variable {s s' : State} {t : Tid} {a : Act}

theorem move_of_takeBlock {size : ℕ} {w : Bool} (hpc : s.pc t = .take size)
    (h : takeBlock s t size = some s') : Move s t (.go w) s' := by
  unfold takeBlock at h
  dsimp only at h
  split at h
  · obtain rfl := Option.some.inj h
    exact .global size w hpc
  · rename_i hle
    have hidx : classIndex (size + kHeaderSize) ≤ 8 := classIndex_le (not_lt.mp hle)
    split at h
    · obtain rfl := Option.some.inj h
      exact .pop size _ _ w hpc ‹_›
    · obtain rfl := Option.some.inj h
      exact .carve size _ w hpc hidx
    · cases h

/-- **The remote branch is dead code.**  The receiver of `free_local_or_remote` is the block's home,
and so is its owner: the method always finds itself to be the owner. -/
theorem move_of_freeLocalOrRemote {o : Tid} {b : ℕ} {w : Bool} (hs : Homed s)
    (hpc : s.pc t = .freeEnter o b) (h : freeLocalOrRemote s t o b = some s') :
    Move s t (.go w) s' := by
  have hhome : s.home b = some o := by
    have := hs.pc t
    rwa [hpc] at this
  unfold freeLocalOrRemote at h
  split at h
  · rename_i owner hw
    obtain rfl : owner = o := Option.some.inj ((hs.home_of_word hw).symm.trans hhome)
    rw [if_pos rfl] at h
    obtain rfl := Option.some.inj h
    exact .enter owner b w hpc hw
  · cases h

/-- **Every step is one of the moves.** -/
theorem move_of_step (hs : Homed s) (h : step s (t, a) = some s') : Move s t a s' := by
  cases a with
  | alloc size =>
    simp only [step, hs.remote t, if_true] at h
    split at h
    · obtain rfl := Option.some.inj h
      exact .callAlloc size ‹_›
    · cases h
  | free b =>
    simp only [step] at h
    split at h
    · rename_i hcond
      unfold freeBlock at h
      split at h
      · obtain rfl := Option.some.inj h
        exact .delete b hcond.1 hcond.2 ‹_›
      · obtain rfl := Option.some.inj h
        exact .callFree b _ hcond.1 hcond.2 ‹_›
      · cases h
    · cases h
  | go w =>
    have hp := hs.pc t
    cases hpc : s.pc t with
    | idle =>
      simp only [step, resume, hpc] at h
      cases h
    | exchange | drain | drainPut | freeCas => rw [hpc] at hp; exact hp.elim
    | take size =>
      simp only [step, resume, hpc] at h
      exact move_of_takeBlock hpc h
    | freeEnter o b =>
      simp only [step, resume, hpc] at h
      exact move_of_freeLocalOrRemote hs hpc h
    | popLink size idx b =>
      simp only [step, resume, hpc, Option.some.injEq] at h
      exact h ▸ .link size idx b w hpc
    | popPut size idx b next =>
      simp only [step, resume, hpc, Option.some.injEq] at h
      exact h ▸ .unlink size idx b next w hpc
    | stamp size idx b =>
      simp only [step, resume, hpc, Option.some.injEq] at h
      exact h ▸ .stamp size idx b w hpc
    | freePut o b idx =>
      simp only [step, resume, hpc, Option.some.injEq] at h
      exact h ▸ .put o b idx w hpc

end Moves

/-! ### Homes survive every move -/

section Homed

variable {s s' : State} {t : Tid} {a : Act}

theorem HomeOf.mono {home home' : ℕ → Option Tid}
    (h : ∀ {b p}, home b = some p → home' b = some p) {p : Tid} :
    ∀ {v : Ptr}, HomeOf home p v → HomeOf home' p v
  | .pool _, hv => hv
  | .block _, hv => h hv

theorem PcHomed.mono {home home' : ℕ → Option Tid}
    (h : ∀ {b p}, home b = some p → home' b = some p) {pc : Pc} (hpc : PcHomed home t pc) :
    PcHomed home' t pc := by
  cases pc with
  | popPut size idx b next => exact ⟨h hpc.1, fun v hv => (hpc.2 v hv).mono h⟩
  | popLink | stamp | freeEnter | freePut => exact h hpc
  | _ => exact hpc

theorem Homed.goto {pc : Pc} (hs : Homed s) (hpc : PcHomed s.home t pc) : Homed (s.goto t pc) :=
  { hs with
    areas := ⟨hs.areas.lt_brk, hs.areas.disjoint⟩
    pc := (forall_update_iff s.pc fun u q => PcHomed s.home u q).mpr
      ⟨hpc, fun u _ => hs.pc u⟩ }

theorem Homed.withLive (hs : Homed s) (l : List ℕ) : Homed { s with live := l } :=
  { hs with areas := ⟨hs.areas.lt_brk, hs.areas.disjoint⟩ }

theorem Homed.setFreelist {p : Tid} {v : Option Ptr} (hs : Homed s) (idx : ℕ)
    (hv : ∀ w ∈ v, HomeOf s.home p w) : Homed (s.setFreelist p idx v) where
  areas := ⟨fun hb => hs.areas.lt_brk ((owns_setFreelist ..).mp hb), fun hp hq =>
    hs.areas.disjoint ((owns_setFreelist ..).mp hp) ((owns_setFreelist ..).mp hq)⟩
  used hb := ⟨(hs.used hb).1, fun q hq => (hs.used hb).2 q ((owns_setFreelist ..).mp hq)⟩
  word := hs.word
  freelist {q j} := by
    refine (forall_update_iff s.pools fun q pool =>
      ∀ j, ∀ w ∈ pool.freelist j, HomeOf s.home q w).mpr ⟨?_, fun q _ j => hs.freelist⟩ q j
    exact (forall_update_iff _ fun _ x => ∀ w ∈ x, HomeOf s.home p w).mpr
      ⟨hv, fun j _ => hs.freelist⟩
  remote := (forall_update_iff s.pools fun _ pool => pool.remoteHead = none).mpr
    ⟨hs.remote p, fun q _ => hs.remote q⟩
  pc := hs.pc

theorem Homed.setWord {b : ℕ} {p : Tid} {v : Option Ptr} (hs : Homed s)
    (hv : ∀ w ∈ v, s.home b = some p ∧ HomeOf s.home p w) : Homed (s.setWord b v) :=
  { hs with
    areas := ⟨hs.areas.lt_brk, hs.areas.disjoint⟩
    word := fun {c} => (forall_update_iff s.word fun c x =>
      ∀ w ∈ x, ∃ p, s.home c = some p ∧ HomeOf s.home p w).mpr
        ⟨fun w hw => ⟨p, hv w hw⟩, fun _ _ => hs.word⟩ c }

theorem Homed.allocGlobal (hs : Homed s) (size total : ℕ) :
    Homed (allocGlobal s t size total) := by
  have hw : Homed ((s.setWord s.brk none).goto t .idle) :=
    (hs.setWord (p := t) (by simp)).goto trivial
  exact
    { hw with
      areas := ⟨fun hb => Nat.lt_add_right total (hs.areas.lt_brk hb), hs.areas.disjoint⟩
      used := fun hb => ⟨Nat.lt_add_right total (hs.used hb).1, (hs.used hb).2⟩ }

/-- A refill changes only the chunk of the pool it is for. -/
theorem refill_frame (s : State) (t : Tid) (idx : ℕ) : (refill s t idx).word = s.word ∧
    (refill s t idx).home = s.home ∧ (refill s t idx).pc = s.pc ∧
      (refill s t idx).live = s.live ∧ (refill s t idx).classIdx = s.classIdx := by
  unfold refill
  split <;> exact ⟨rfl, rfl, rfl, rfl, rfl⟩

theorem refill_pools (s : State) (t : Tid) (idx : ℕ) : ∀ p,
    ((refill s t idx).pools p).freelist = (s.pools p).freelist ∧
      ((refill s t idx).pools p).remoteHead = (s.pools p).remoteHead := by
  unfold refill
  split
  · exact (forall_update_iff s.pools fun p pool =>
      pool.freelist = (s.pools p).freelist ∧ pool.remoteHead = (s.pools p).remoteHead).mpr
        ⟨⟨rfl, rfl⟩, fun _ _ => ⟨rfl, rfl⟩⟩
  · exact fun _ => ⟨rfl, rfl⟩

theorem carve_pools (s : State) (t : Tid) (size idx : ℕ) : ∀ p,
    ((carve s t size idx).pools p).freelist = (s.pools p).freelist ∧
      ((carve s t size idx).pools p).remoteHead = (s.pools p).remoteHead :=
  (forall_update_iff (refill s t idx).pools fun p pool =>
    pool.freelist = (s.pools p).freelist ∧ pool.remoteHead = (s.pools p).remoteHead).mpr
      ⟨refill_pools s t idx t, fun p _ => refill_pools s t idx p⟩

theorem home_carve (s : State) (t : Tid) (size idx : ℕ) :
    (carve s t size idx).home = Function.update s.home (carved s t idx) (some t) := by
  rw [← (refill_frame s t idx).2.1]
  rfl

/-- Homes are never reassigned: the carved block had none. -/
theorem Homed.home_carve_of_home (hs : Homed s) {b idx : ℕ} {p : Tid} (size : ℕ) (hidx : idx ≤ 8)
    (hb : s.home b = some p) : (carve s t size idx).home b = some p := by
  have hne : b ≠ carved s t idx := fun h => not_used_carved hidx (h ▸ hs.used hb)
  rw [home_carve, update_of_ne hne, hb]

theorem Homed.carve (hs : Homed s) (size : ℕ) {idx : ℕ} (hidx : idx ≤ 8) :
    Homed (carve s t size idx) where
  areas := hs.areas.carve size hidx
  used {b p} hb := by
    rw [home_carve] at hb
    by_cases hbc : b = carved s t idx
    · exact hbc ▸ used_carved hs.areas size hidx
    · rw [update_of_ne hbc] at hb
      exact (hs.used hb).carve hs.areas size hidx
  word {b} v hv := by
    obtain ⟨p, hb, hp⟩ := hs.word (b := b) v ((refill_frame s t idx).1 ▸ hv)
    exact ⟨p, hs.home_carve_of_home size hidx hb, hp.mono (hs.home_carve_of_home size hidx)⟩
  freelist {p j} v hv := by
    rw [(carve_pools s t size idx p).1] at hv
    exact (hs.freelist v hv).mono (hs.home_carve_of_home size hidx)
  remote p := (carve_pools s t size idx p).2.trans (hs.remote p)
  pc := by
    refine (forall_update_iff _ fun u q =>
      PcHomed (FramePool.carve s t size idx).home u q).mpr ⟨update_self .., fun u _ => ?_⟩
    rw [(refill_frame s t idx).2.2.1]
    exact (hs.pc u).mono (hs.home_carve_of_home size hidx)

/-- **Homes survive every step**, whatever the interleaving. -/
theorem Homed.step (hs : Homed s) (hstep : step s (t, a) = some s') : Homed s' := by
  have hpc := hs.pc t
  have hmove := move_of_step hs hstep
  clear hstep
  cases hmove with
  | callAlloc size h => exact hs.goto trivial
  | callFree b o h hb hw => exact (hs.withLive _).goto (hs.home_of_word hw)
  | delete b h hb hw => exact hs.withLive _
  | global size w h => exact hs.allocGlobal size _
  | carve size idx w h hidx => exact hs.carve size hidx
  | pop size idx b w h hfl => exact hs.goto (hs.freelist _ hfl)
  | link size idx b w h =>
    rw [h] at hpc
    refine hs.goto ⟨hpc, fun v hv => ?_⟩
    obtain ⟨p, hb, hp⟩ := hs.word v hv
    obtain rfl : p = t := Option.some.inj (hb.symm.trans hpc)
    exact hp
  | unlink size idx b next w h =>
    rw [h] at hpc
    exact (hs.setFreelist idx hpc.2).goto hpc.1
  | stamp size idx b w h =>
    rw [h] at hpc
    have hword : Homed (s.setWord b (some (.pool t))) :=
      hs.setWord fun w hw => ⟨hpc, Option.some.inj hw ▸ rfl⟩
    have hlive : Homed ({ s.setWord b (some (.pool t)) with live := b :: s.live }.goto t .idle) :=
      (hword.withLive _).goto trivial
    exact { hlive with areas := ⟨hs.areas.lt_brk, hs.areas.disjoint⟩ }
  | enter o b w h hw =>
    rw [h] at hpc
    exact (hs.setWord fun v hv => ⟨hpc, hs.freelist v hv⟩).goto hpc
  | put o b idx w h =>
    rw [h] at hpc
    refine (hs.setFreelist idx fun v hv => ?_).goto trivial
    obtain rfl : .block b = v := Option.some.inj hv
    exact hpc

end Homed

end Cornet.FramePool
