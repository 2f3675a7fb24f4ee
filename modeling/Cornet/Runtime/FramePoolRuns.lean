import Cornet.Runtime.FramePoolHomes

/-!
# Runtime/FramePoolRuns — where a frame can be, over every interleaving

    carved ─▸ in an `alloc` ─▸ live ─▸ in a `free` ─▸ on the owner's freelist ─▸ in an `alloc` ─▸ ⋯

An `Account` of a state puts every block at exactly one place.  One exists in every state of a run
in which threads free only blocks of their own pool (`account_of_ownFrees`).  Without that condition
the access that ends a free writes the owner's freelist from the wrong thread
(`free_pushes_freelist`), and a frame can be handed out twice (`racyFrees_no_account`).
-/

namespace Cornet.FramePool

open List Function

/-! ## The account: every block at exactly one place

A `Place` is where a block can be found; the lists of an account say which blocks the links of a
freelist or an inbound stack lead to. -/

inductive Place
  | live
  /-- inside an `alloc` or a `free` of this thread, off every list -/
  | hand (t : Tid)
  | free (p : Tid) (c : ℕ)
  | inbound (p : Tid)
  deriving DecidableEq, Repr

/-- The blocks on each freelist and on each inbound stack. -/
structure Lists where
  free : Tid → ℕ → List ℕ := fun _ _ => []
  inbound : Tid → List ℕ := fun _ => []

def Lists.setFree (L : Lists) (p : Tid) (c : ℕ) (l : List ℕ) : Lists :=
  { L with free := Function.update L.free p (Function.update (L.free p) c l) }

/-- The block a thread has in hand. -/
def Pc.holds : Pc → Option ℕ
  | .stamp _ _ b | .freeEnter _ b | .freePut _ b _ | .freeCas _ b _ | .drainPut _ b _ _ => some b
  | _ => none

/-- Block `b` is at a place. -/
def At (s : State) (L : Lists) : Place → ℕ → Prop
  | .live, b => b ∈ s.live
  | .hand t, b => (s.pc t).holds = some b
  | .free p c, b => b ∈ L.free p c
  | .inbound p, b => b ∈ L.inbound p

/-- Each block is at exactly one place. -/
structure Places (s : State) (L : Lists) : Prop where
  placed : ∀ {b p}, s.home b = some p → ∃ q, At s L q b
  unique : ∀ {b q q'}, At s L q b → At s L q' b → q = q'

/-- The lists are what the links lead to, a block is on a list of its owner only, and is nowhere
twice. -/
structure Account (s : State) (L : Lists) : Prop extends Places s L where
  freelist : ∀ p c, Chain Ptr.block s.word ((s.pools p).freelist c) (L.free p c)
  remote : ∀ p, Chain Ptr.block s.word (s.pools p).remoteHead (L.inbound p)
  owner_free : ∀ {b p c}, At s L (.free p c) b → s.home b = some p
  owner_inbound : ∀ {b p}, At s L (.inbound p) b → s.home b = some p
  live_nodup : s.live.Nodup
  free_nodup : ∀ p c, (L.free p c).Nodup
  inbound_nodup : ∀ p, (L.inbound p).Nodup

/-- The block a thread is inside a `free` of, with the owner it read. -/
def Pc.freeing : Pc → Option (Tid × ℕ)
  | .freeEnter o b | .freePut o b _ | .freeCas o b _ => some (o, b)
  | _ => none

/-- A thread inside a `free` of another pool's block changes no freelist, and no inbound stack but
the owner's. -/
def ForeignFreeFrames (s : State) : Prop :=
  ∀ {t o b w s'}, (s.pc t).freeing = some (o, b) → o ≠ t → step s (t, .go w) = some s' →
    (∀ p, (s'.pools p).freelist = (s.pools p).freelist) ∧
      ∀ p, p ≠ o → (s'.pools p).remoteHead = (s.pools p).remoteHead

/-- Threads free blocks of their own pool only (or blocks too large for any pool). -/
def OwnFrees (s : State) : Tid × Act → Prop
  | (t, .free b) => ∀ o, s.word b = some (.pool o) → o = t
  | _ => True

instance (s : State) : (m : Tid × Act) → Decidable (OwnFrees s m)
  | (t, .free b) =>
    match h : s.word b with
    | some (.pool o) => decidable_of_iff (o = t) (by simp [OwnFrees, h])
    | some (.block c) => isTrue (by simp [OwnFrees, h])
    | none => isTrue (by simp [OwnFrees, h])
  | (_, .alloc _) => isTrue trivial
  | (_, .go _) => isTrue trivial

/-- What the accesses a thread has already made tell it, when nobody else touches its pool. -/
def PcKnows (s : State) (t : Tid) : Pc → Prop
  | .popLink _ idx b => (s.pools t).freelist idx = some (.block b)
  | .popPut _ idx b next => (s.pools t).freelist idx = some (.block b) ∧ s.word b = next
  | .freeEnter o _ => o = t
  | .freePut o b idx => o = t ∧ s.word b = (s.pools t).freelist idx
  | _ => True

/-- What carries the account from step to step, beside `Homed`. -/
structure Ledger (s : State) (L : Lists) : Prop extends Places s L where
  freelist : ∀ p c, Chain Ptr.block s.word ((s.pools p).freelist c) (L.free p c)
  inbound : ∀ p, L.inbound p = []
  owner : ∀ {b p c}, At s L (.free p c) b → s.home b = some p
  live_nodup : s.live.Nodup
  free_nodup : ∀ p c, (L.free p c).Nodup
  used : ∀ {b q}, At s L q b → Used s b
  word_live : ∀ {b p}, b ∈ s.live → s.home b = some p → s.word b = some (.pool p)
  pc : ∀ t, PcKnows s t (s.pc t)

/-- At most the block `b` changes place; it is at `q₀` afterwards, if anywhere. -/
structure Moved (s : State) (L : Lists) (b : ℕ) (q₀ : Place) (s' : State) (L' : Lists) : Prop where
  home : ∀ c, c ≠ b → s'.home c = s.home c
  other : ∀ q c, c ≠ b → (At s' L' q c ↔ At s L q c)
  self : ∀ q, At s' L' q b → q = q₀
  here : ∀ p, s'.home b = some p → At s' L' q₀ b

section Ledger

variable {s s' : State} {t : Tid} {a : Act} {L L' : Lists} {b : ℕ} {q₀ : Place}

theorem Moved.places (hm : Moved s L b q₀ s' L') (h : Places s L) : Places s' L' := by
  refine ⟨fun {c p} hc => ?_, fun {c q q'} hq hq' => ?_⟩ <;> rcases eq_or_ne c b with rfl | hcb
  · exact ⟨q₀, hm.here p hc⟩
  · obtain ⟨q, hq⟩ := h.placed (hm.home c hcb ▸ hc)
    exact ⟨q, (hm.other q c hcb).mpr hq⟩
  · rw [hm.self q hq, hm.self q' hq']
  · exact h.unique ((hm.other q c hcb).mp hq) ((hm.other q' c hcb).mp hq')

theorem Moved.used (hm : Moved s L b q₀ s' L') (h : ∀ {c q}, At s L q c → Used s c)
    (hmono : ∀ c, Used s c → Used s' c) (hb : Used s' b) {c : ℕ} {q : Place} (hq : At s' L' q c) :
    Used s' c := by
  rcases eq_or_ne c b with rfl | hcb
  · exact hb
  · exact hmono c (h ((hm.other q c hcb).mp hq))

theorem Moved.owner (hm : Moved s L b q₀ s' L') (hL : Ledger s L)
    (hb : ∀ p c, q₀ = .free p c → s'.home b = some p) {c d : ℕ} {p : Tid}
    (hc : At s' L' (.free p d) c) : s'.home c = some p := by
  rcases eq_or_ne c b with rfl | hcb
  · exact hb p d (hm.self _ hc).symm
  · rw [hm.home c hcb]
    exact hL.owner ((hm.other _ c hcb).mp hc)

/-- The block goes from `r` to `q₀`, and no other moves. -/
theorem moved_of {r : Place} (hold : ∀ q, At s L q b → q = r)
    (hhome : ∀ c, c ≠ b → s'.home c = s.home c)
    (hat : ∀ q c, At s' L' q c ↔ c = b ∧ q = q₀ ∨ At s L q c ∧ ¬ (c = b ∧ q = r)) : Moved s L b q₀
      s' L' := by
  refine ⟨hhome, fun q c hc => ?_, fun q hq => ?_, fun _ _ => (hat q₀ b).mpr (.inl ⟨rfl, rfl⟩)⟩
  · simp [hat, hc]
  · rcases (hat q b).mp hq with ⟨-, hq⟩ | ⟨hq, hne⟩
    · exact hq
    · exact absurd ⟨rfl, hold q hq⟩ hne

/-- An empty hand takes the block. -/
theorem hand_take {pc : Pc} {q₁ : Place} (hold : (s.pc t).holds = none) (hnew : pc.holds = some b)
    (hq : ∀ u, q₁ ≠ .hand u) (u : Tid) (c : ℕ) : (Function.update s.pc t pc u).holds = some c ↔
      c = b ∧ Place.hand u = .hand t ∨ (s.pc u).holds = some c ∧ ¬ (c = b ∧ Place.hand u = q₁) := by
  by_cases hu : u = t
  · simp [hu, hold, hnew, eq_comm]
  · simp [hu, (hq u).symm]

/-- The block leaves the hand it is in. -/
theorem hand_drop {pc : Pc} (hold : (s.pc t).holds = some b) (hnew : pc.holds = none)
    (hq : ∀ u, q₀ ≠ .hand u) (u : Tid) (c : ℕ) : (Function.update s.pc t pc u).holds = some c ↔
      c = b ∧ Place.hand u = q₀ ∨ (s.pc u).holds = some c ∧ ¬ (c = b ∧ Place.hand u = .hand t) := by
  by_cases hu : u = t
  · simp [hu, hold, hnew, (hq t).symm, eq_comm]
  · simp [hu, (hq u).symm]

/-- The head of a freelist is on it, and its link leads to the rest. -/
theorem Ledger.eq_cons {p : Tid} {idx : ℕ} (hL : Ledger s L)
    (h : (s.pools p).freelist idx = some (.block b)) :
    ∃ l, L.free p idx = b :: l ∧ Chain Ptr.block s.word (s.word b) l :=
  Chain.eq_cons (fun _ _ => Ptr.block.inj) (h ▸ hL.freelist p idx)

theorem Ledger.at_free {p : Tid} {idx : ℕ} (hL : Ledger s L)
    (h : (s.pools p).freelist idx = some (.block b)) : At s L (.free p idx) b := by
  obtain ⟨l, hl, -⟩ := hL.eq_cons h
  rw [At, hl]
  exact mem_cons_self

/-- What a thread knows depends on its own freelists and on the words of blocks it holds or has on a
freelist. -/
theorem Ledger.knows_of_word {u : Tid} (hL : Ledger s L)
    (hfl : (s'.pools u).freelist = (s.pools u).freelist)
    (hw : ∀ c, c ≠ b → s'.word c = s.word c) (hb : ∀ c, ¬ At s L (.free u c) b)
    (hh : (s.pc u).holds ≠ some b) : PcKnows s' u (s.pc u) := by
  have h := hL.pc u
  cases hpc : s.pc u with
  | popPut size idx d next =>
    rw [hpc] at h
    have hd : d ≠ b := fun hd => hb idx (hd ▸ hL.at_free h.1)
    exact ⟨hfl ▸ h.1, (hw d hd).trans h.2⟩
  | freePut o d idx =>
    rw [hpc] at h hh
    have hd : d ≠ b := fun hd => hh (hd ▸ rfl)
    exact ⟨h.1, (hw d hd).trans (hfl ▸ h.2)⟩
  | popLink size idx d =>
    rw [hpc] at h
    exact (congrFun hfl idx).trans h
  | freeEnter o d =>
    rw [hpc] at h
    exact h
  | _ => trivial

/-- A thread may move on with the same block in hand, or with none before and after. -/
theorem Ledger.goto {pc : Pc} (hL : Ledger s L) (hholds : pc.holds = (s.pc t).holds)
    (hpc : PcKnows s t pc) : Ledger (s.goto t pc) L := by
  have hat : ∀ {q c}, At (s.goto t pc) L q c ↔ At s L q c := by
    intro q c
    cases q with
    | hand u =>
      change (Function.update s.pc t pc u).holds = _ ↔ (s.pc u).holds = _
      rcases eq_or_ne u t with rfl | hu
      · rw [update_self, hholds]
      · rw [update_of_ne hu]
    | _ => exact Iff.rfl
  exact
    { hL with
      placed := fun hc => (hL.placed hc).imp fun _ => hat.mpr
      unique := fun hq hq' => hL.unique (hat.mp hq) (hat.mp hq')
      owner := fun h => hL.owner (hat.mp h)
      used := fun h => hL.used (hat.mp h)
      pc := (forall_update_iff s.pc fun u q => PcKnows s u q).mpr
        ⟨hpc, fun u _ => hL.pc u⟩ }

theorem Ledger.callFree (hL : Ledger s L) (hpc : s.pc t = .idle) (hb : b ∈ s.live) :
    Ledger ({ s with live := s.live.erase b }.goto t (.freeEnter t b)) L := by
  have hm : Moved s L b (.hand t) ({ s with live := s.live.erase b }.goto t (.freeEnter t b))
    L := by
    refine moved_of (r := .live) (fun q hq => hL.unique hq hb) (fun _ _ => rfl) fun q c => ?_
    cases q with
    | live => simp [At, State.goto, hL.live_nodup.mem_erase_iff, and_comm]
    | hand u => exact hand_take (by rw [hpc]; rfl) rfl (by simp) u c
    | _ => simp [At]
  exact
    { hL with
      toPlaces := hm.places hL.toPlaces
      owner := hm.owner hL nofun
      live_nodup := hL.live_nodup.erase b
      used := hm.used hL.used (fun _ h => h) (hL.used (q := .live) hb)
      word_live := fun hc => hL.word_live (mem_of_mem_erase hc)
      pc := (forall_update_iff s.pc fun u q => PcKnows s u q).mpr
        ⟨rfl, fun u _ => hL.pc u⟩ }

theorem Ledger.delete (hL : Ledger s L) (hb : b ∈ s.live) (hw : s.word b = none) :
    Ledger { s with live := s.live.erase b } L := by
  have hhome : ∀ p, s.home b ≠ some p := fun p hp => by
    rw [hL.word_live hb hp] at hw
    cases hw
  have hm : Moved s L b .live { s with live := s.live.erase b } L := by
    refine ⟨fun _ _ => rfl, fun q c hc => ?_, fun q hq => ?_, fun p hp => absurd hp (hhome p)⟩
    · cases q with
      | live => exact mem_erase_of_ne hc
      | _ => exact Iff.rfl
    · cases q with
      | live => rfl
      | _ => exact hL.unique hq hb
  exact
    { hL with
      toPlaces := hm.places hL.toPlaces
      owner := hm.owner hL nofun
      live_nodup := hL.live_nodup.erase b
      used := hm.used hL.used (fun _ h => h) (hL.used (q := .live) hb)
      word_live := fun hc => hL.word_live (mem_of_mem_erase hc) }

/-- An oversized block comes from fresh memory straight to the caller. -/
theorem Ledger.allocGlobal (hs : Homed s) (hL : Ledger s L) (hpc : (s.pc t).holds = none)
    (size : ℕ) {total : ℕ} (htotal : 0 < total) : Ledger (allocGlobal s t size total) L := by
  have hfresh : ∀ q, ¬ At s L q s.brk := fun q hq => lt_irrefl _ (hL.used hq).1
  have hm : Moved s L s.brk .live (FramePool.allocGlobal s t size total) L := by
    refine moved_of (r := .live) (fun q hq => absurd hq (hfresh q)) (fun _ _ => rfl) fun q c => ?_
    cases q with
    | live => by_cases hc : c = s.brk <;> simp [At, FramePool.allocGlobal, hc]
    | hand u => by_cases hu : u = t <;> simp [At, FramePool.allocGlobal, hu, hpc, show Pc.idle.holds = none from rfl]
    | _ => simp [At]
  have hmono : ∀ c, Used s c → Used (FramePool.allocGlobal s t size total) c := fun c hc =>
    ⟨Nat.lt_add_right total hc.1, hc.2⟩
  exact
    { hL with
      toPlaces := hm.places hL.toPlaces
      freelist := fun p c => (hL.freelist p c).update none (hfresh (.free p c))
      owner := hm.owner hL nofun
      live_nodup := nodup_cons.mpr ⟨hfresh .live, hL.live_nodup⟩
      used := hm.used hL.used hmono ⟨Nat.lt_add_of_pos_right htotal, fun p hp =>
        lt_irrefl _ (hs.areas.lt_brk hp)⟩
      word_live := fun {c p} hc hp => by
        rcases mem_cons.mp hc with rfl | hc
        · exact absurd (hs.used hp).1 (lt_irrefl _)
        · have hne : c ≠ s.brk := fun h => hfresh .live (h ▸ hc)
          exact (update_of_ne hne ..).trans (hL.word_live hc hp)
      pc := (forall_update_iff s.pc fun u q =>
        PcKnows (FramePool.allocGlobal s t size total) u q).mpr ⟨trivial, fun u _ =>
          hL.knows_of_word rfl (fun c hc => update_of_ne hc ..) (fun c => hfresh _)
            (hfresh (.hand u))⟩ }

/-- A block carved from the chunk was nowhere before; the thread has it in hand. -/
theorem Ledger.carve (hs : Homed s) (hL : Ledger s L) (hpc : (s.pc t).holds = none) (size : ℕ)
    {idx : ℕ} (hidx : idx ≤ 8) : Ledger (carve s t size idx) L := by
  have hfresh : ∀ q, ¬ At s L q (carved s t idx) := fun q hq => not_used_carved hidx (hL.used hq)
  obtain ⟨hword, -, hpcs, hlive, -⟩ := refill_frame s t idx
  have hpc' : (FramePool.carve s t size idx).pc =
      Function.update s.pc t (.stamp size idx (carved s t idx)) := hpcs ▸ rfl
  have hm : Moved s L (carved s t idx) (.hand t) (FramePool.carve s t size idx) L := by
    refine moved_of (r := .inbound t) (fun q hq => absurd hq (hfresh q)) (fun c hc => ?_) fun q c =>
      ?_
    · rw [home_carve, update_of_ne hc]
    · cases q with
      | live => simp [At, FramePool.carve, State.setPool, hlive]
      | hand u =>
        rw [At, hpc']
        exact hand_take hpc rfl (by simp) u c
      | free => simp [At]
      | inbound => simp [At, hL.inbound]
  exact
    { toPlaces := hm.places hL.toPlaces
      freelist := fun p c => by
        rw [(carve_pools s t size idx p).1]
        exact hword ▸ hL.freelist p c
      inbound := hL.inbound
      owner := hm.owner hL (by rintro _ _ ⟨⟩)
      live_nodup := hlive ▸ hL.live_nodup
      free_nodup := hL.free_nodup
      used := hm.used hL.used (fun c hc => hc.carve hs.areas size hidx)
        (used_carved hs.areas size hidx)
      word_live := fun {c p} hc hp => by
        have hc : c ∈ s.live := hlive ▸ hc
        have hne : c ≠ carved s t idx := fun h => hfresh .live (h ▸ hc)
        exact (congrFun hword c).trans (hL.word_live hc (hm.home c hne ▸ hp))
      pc := by
        rw [hpc']
        exact (forall_update_iff s.pc fun u q =>
          PcKnows (FramePool.carve s t size idx) u q).mpr ⟨trivial, fun u _ =>
            hL.knows_of_word (carve_pools s t size idx u).1 (fun c _ => congrFun hword c)
              (fun c => hfresh _) (hfresh (.hand u))⟩ }

/-- A freelist and its account are written together: what holds of the new pair and held of the
other pairs holds of all. -/
theorem setFree_cases {idx : ℕ} {v : Option Ptr} {l : List ℕ}
    (P : Tid → ℕ → Option Ptr → List ℕ → Prop) (h : P t idx v l)
    (hne : ∀ p d, ¬ (p = t ∧ d = idx) → P p d ((s.pools p).freelist d) (L.free p d)) (p : Tid)
    (d : ℕ) :
    P p d (((s.setFreelist t idx v).pools p).freelist d) ((L.setFree t idx l).free p d) := by
  by_cases hp : p = t
  · subst hp
    by_cases hd : d = idx
    · subst hd
      simpa [State.setFreelist, State.setPool, Lists.setFree] using h
    · simpa [State.setFreelist, State.setPool, Lists.setFree, hd] using hne p d (by simp [hd])
  · simpa [State.setFreelist, State.setPool, Lists.setFree, hp] using hne p d (by simp [hp])

theorem used_setFreelist {p : Tid} {idx : ℕ} {v : Option Ptr} (c : ℕ) (h : Used s c) :
    Used (s.setFreelist p idx v) c :=
  ⟨h.1, fun q hq => h.2 q ((owns_setFreelist ..).mp hq)⟩

/-- The write that ends a pop: the head leaves the freelist for the thread's hand. -/
theorem Ledger.unlink {size idx : ℕ} {next : Option Ptr} (hL : Ledger s L)
    (hpc : s.pc t = .popPut size idx b next) :
    ∃ L', Ledger ((s.setFreelist t idx next).goto t (.stamp size idx b)) L' := by
  have hknows := hL.pc t
  rw [hpc] at hknows
  obtain ⟨hhead, hnext⟩ := hknows
  obtain ⟨l, hl, hchain⟩ := hL.eq_cons hhead
  have hnodup : (b :: l).Nodup := hl ▸ hL.free_nodup t idx
  have hat : At s L (.free t idx) b := hL.at_free hhead
  have hm : Moved s L b (.hand t) ((s.setFreelist t idx next).goto t (.stamp size idx b))
      (L.setFree t idx l) := by
    refine moved_of (r := .free t idx) (fun q hq => hL.unique hq hat) (fun _ _ => rfl) fun q c => ?_
    cases q with
    | hand u => exact hand_take (s := s) (by rw [hpc]; rfl) rfl (by simp) u c
    | free p d =>
      refine setFree_cases (s := s) (v := next)
        (fun p d _ l' => c ∈ l' ↔ c = b ∧ Place.free p d = .hand t ∨
        c ∈ L.free p d ∧ ¬ (c = b ∧ Place.free p d = .free t idx)) ?_ (fun p d hpd => by simp [hpd])
          p d
      have hb := (nodup_cons.mp hnodup).1
      by_cases hc : c = b <;> simp [hl, hc, hb]
    | _ => simp [At, State.goto, State.setFreelist, State.setPool, Lists.setFree]
  refine ⟨L.setFree t idx l,
    { toPlaces := hm.places hL.toPlaces
      freelist := setFree_cases (fun _ _ x l' => Chain Ptr.block s.word x l') (hnext ▸ hchain)
        fun p d _ => hL.freelist p d
      inbound := hL.inbound
      owner := hm.owner hL (by rintro _ _ ⟨⟩)
      live_nodup := hL.live_nodup
      free_nodup := setFree_cases (s := s) (v := next) (fun _ _ _ l' => l'.Nodup)
        (nodup_cons.mp hnodup).2 fun p d _ => hL.free_nodup p d
      used := hm.used hL.used used_setFreelist (used_setFreelist b (hL.used hat))
      word_live := hL.word_live
      pc := (forall_update_iff s.pc fun u q =>
        PcKnows (s.setFreelist t idx next) u q).mpr ⟨trivial, fun u hu => ?_⟩ }⟩
  have hpool : ((s.setFreelist t idx next).pools u) = s.pools u := update_of_ne hu ..
  exact hL.knows_of_word (congrArg Pool.freelist hpool) (fun _ _ => rfl)
    (fun c hc => hu (Place.free.inj (hL.unique hc hat)).1)
    (fun hc => by simpa using hL.unique (q := .hand u) hc hat)

/-- The header writes that end `alloc`: from the hand to the caller. -/
theorem Ledger.stamp {size idx : ℕ} (hs : Homed s) (hL : Ledger s L)
    (hpc : s.pc t = .stamp size idx b) : Ledger (stampBlock s t size idx b) L := by
  have hat : At s L (.hand t) b := congrArg Pc.holds hpc
  have hnot : ∀ q, At s L q b → q = .hand t := fun q hq => hL.unique hq hat
  have hm : Moved s L b .live (stampBlock s t size idx b) L := by
    refine moved_of hnot (fun _ _ => rfl) fun q c => ?_
    cases q with
    | live => simp [At, stampBlock]
    | hand u => exact hand_drop (s := s) hat rfl (by simp) u c
    | _ => simp [At]
  exact
    { hL with
      toPlaces := hm.places hL.toPlaces
      freelist := fun p c => (hL.freelist p c).update _ fun h => nomatch hnot (.free p c) h
      owner := hm.owner hL nofun
      live_nodup := nodup_cons.mpr ⟨fun h => (nomatch hnot .live h), hL.live_nodup⟩
      used := hm.used hL.used (fun _ h => h) (hL.used hat)
      word_live := fun {c p} hc hp => by
        rcases mem_cons.mp hc with rfl | hc
        · have hhome := hs.pc t
          rw [hpc] at hhome
          obtain rfl : t = p := Option.some.inj (hhome.symm.trans hp)
          exact update_self ..
        · have hne : c ≠ b := fun h => nomatch hnot .live (h ▸ hc)
          exact (update_of_ne hne ..).trans (hL.word_live hc hp)
      pc := (forall_update_iff s.pc fun u q =>
        PcKnows (stampBlock s t size idx b) u q).mpr ⟨trivial, fun u hu =>
          hL.knows_of_word rfl (fun c hc => update_of_ne hc ..)
            (fun c h => by cases hnot _ h) fun h => hu (by simpa using hnot (.hand u) h)⟩ }

/-- The first write of a local `free`: the block in hand is linked to the head of the freelist. -/
theorem Ledger.enter (hL : Ledger s L) (hpc : s.pc t = .freeEnter t b) :
    Ledger ((s.setWord b ((s.pools t).freelist (s.classIdx b))).goto t
      (.freePut t b (s.classIdx b))) L := by
  have hat : At s L (.hand t) b := congrArg Pc.holds hpc
  have hnot : ∀ q, At s L q b → q = .hand t := fun q hq => hL.unique hq hat
  have hword : Ledger (s.setWord b ((s.pools t).freelist (s.classIdx b))) L :=
    { hL with
      toPlaces := ⟨hL.placed, hL.unique⟩
      freelist := fun p c => (hL.freelist p c).update _ fun h => nomatch hnot (.free p c) h
      owner := hL.owner
      used := hL.used
      word_live := fun {c p} hc hp => by
        have hne : c ≠ b := fun h => nomatch hnot .live (h ▸ hc)
        exact (update_of_ne hne ..).trans (hL.word_live hc hp)
      pc := fun u => by
        rcases eq_or_ne u t with rfl | hu
        · change PcKnows _ u (s.pc u)
          rw [hpc]
          rfl
        · exact hL.knows_of_word rfl (fun c hc => update_of_ne hc ..)
            (fun c h => by cases hnot _ h) fun h => hu (by simpa using hnot (.hand u) h) }
  refine hword.goto ?_ ⟨rfl, update_self ..⟩
  change _ = (s.pc t).holds
  rw [hpc]
  rfl

/-- The write that ends a local `free`: from the hand to the head of the thread's own freelist. -/
theorem Ledger.put {idx : ℕ} (hs : Homed s) (hL : Ledger s L) (hpc : s.pc t = .freePut t b idx) :
    ∃ L', Ledger ((s.setFreelist t idx (some (.block b))).goto t .idle) L' := by
  have hknows := hL.pc t
  have hhome := hs.pc t
  rw [hpc] at hknows hhome
  have hat : At s L (.hand t) b := congrArg Pc.holds hpc
  have hnot : ∀ q, At s L q b → q = .hand t := fun q hq => hL.unique hq hat
  have hbl : b ∉ L.free t idx := fun h => nomatch hnot (.free t idx) h
  have hm : Moved s L b (.free t idx) ((s.setFreelist t idx (some (.block b))).goto t .idle)
      (L.setFree t idx (b :: L.free t idx)) := by
    refine moved_of hnot (fun _ _ => rfl) fun q c => ?_
    cases q with
    | hand u => exact hand_drop (s := s) hat rfl (by simp) u c
    | free p d =>
      exact setFree_cases (s := s) (v := none)
        (fun p d _ l' => c ∈ l' ↔ c = b ∧ Place.free p d = .free t idx ∨
        c ∈ L.free p d ∧ ¬ (c = b ∧ Place.free p d = .hand t)) (by simp)
          (fun p d hpd => by simp [hpd]) p d
    | _ => simp [At, State.goto, State.setFreelist, State.setPool, Lists.setFree]
  refine ⟨L.setFree t idx (b :: L.free t idx),
    { toPlaces := hm.places hL.toPlaces
      freelist := setFree_cases (fun _ _ x l' => Chain Ptr.block s.word x l')
        ⟨rfl, hknows.2 ▸ hL.freelist t idx⟩ fun p d _ => hL.freelist p d
      inbound := hL.inbound
      owner := hm.owner hL fun p d h => by
        obtain ⟨rfl, -⟩ := Place.free.inj h
        exact hhome
      live_nodup := hL.live_nodup
      free_nodup := setFree_cases (s := s) (v := none) (fun _ _ _ l' => l'.Nodup)
        (nodup_cons.mpr ⟨hbl, hL.free_nodup t idx⟩) fun p d _ => hL.free_nodup p d
      used := hm.used hL.used used_setFreelist (used_setFreelist b (hL.used hat))
      word_live := hL.word_live
      pc := (forall_update_iff s.pc fun u q =>
        PcKnows (s.setFreelist t idx (some (.block b))) u q).mpr ⟨trivial, fun u hu => ?_⟩ }⟩
  have hpool : (s.setFreelist t idx (some (.block b))).pools u = s.pools u :=
    update_of_ne hu ..
  exact hL.knows_of_word (congrArg Pool.freelist hpool) (fun _ _ => rfl)
    (fun c h => by cases hnot _ h) fun h => hu (by simpa using hnot (.hand u) h)

/-- **One step keeps the books**, when threads free only blocks of their own pool. -/
theorem Ledger.step (hs : Homed s) (hL : Ledger s L) (hok : OwnFrees s (t, a))
    (hstep : step s (t, a) = some s') : ∃ L', Ledger s' L' := by
  have hmove := move_of_step hs hstep
  clear hstep
  cases hmove with
  | callAlloc size h => exact ⟨L, hL.goto (by simp [h, Pc.holds]) trivial⟩
  | callFree b o h hb hw =>
    obtain rfl := hok o hw
    exact ⟨L, hL.callFree h hb⟩
  | delete b h hb hw => exact ⟨L, hL.delete hb hw⟩
  | global size w h =>
    exact ⟨L, hL.allocGlobal hs (by simp [h, Pc.holds]) size (Nat.succ_pos _)⟩
  | carve size idx w h hidx => exact ⟨L, hL.carve hs (by simp [h, Pc.holds]) size hidx⟩
  | pop size idx b w h hfl => exact ⟨L, hL.goto (by simp [h, Pc.holds]) hfl⟩
  | link size idx b w h =>
    have hknows := hL.pc t
    rw [h] at hknows
    exact ⟨L, hL.goto (by simp [h, Pc.holds]) ⟨hknows, rfl⟩⟩
  | unlink size idx b next w h => exact hL.unlink h
  | stamp size idx b w h => exact ⟨L, hL.stamp hs h⟩
  | enter o b w h hw =>
    obtain rfl : o = t := by simpa [h, PcKnows] using hL.pc t
    exact ⟨L, hL.enter h⟩
  | put o b idx w h =>
    obtain ⟨rfl, -⟩ : o = t ∧ _ := by simpa [h, PcKnows] using hL.pc t
    exact hL.put hs h

end Ledger

/-! ## Classes -/

section Classes

/-- The blocks a thread's locals name have the class its next access takes them to have. -/
def PcClassed (κ cls : ℕ → ℕ) : Pc → Prop
  | .popLink _ idx b | .stamp _ idx b => κ b = idx
  | .popPut _ idx b next => κ b = idx ∧ ∀ c, next = some (.block c) → κ c = idx
  | .freePut _ b idx => κ b = idx ∧ cls b = idx
  | _ => True

/-- `κ` is the class each block was carved for: lists and links keep to one class, and the header of
a block that has been handed out names it. -/
structure Classed (κ : ℕ → ℕ) (s : State) : Prop where
  word : ∀ {b c}, s.word b = some (.block c) → κ c = κ b
  stamped : ∀ {b o}, s.word b = some (.pool o) → s.classIdx b = κ b
  freelist : ∀ {p idx c}, (s.pools p).freelist idx = some (.block c) → κ c = idx
  pc : ∀ t, PcClassed κ s.classIdx (s.pc t)

variable {s s' : State} {t : Tid} {a : Act} {κ : ℕ → ℕ} {b : ℕ}

theorem Classed.goto {pc : Pc} (h : Classed κ s) (hpc : PcClassed κ s.classIdx pc) :
    Classed κ (s.goto t pc) :=
  { h with pc := (forall_update_iff s.pc fun _ => PcClassed κ s.classIdx).mpr
             ⟨hpc, fun u _ => h.pc u⟩ }

theorem Classed.setFreelist {p : Tid} {idx : ℕ} {v : Option Ptr} (h : Classed κ s)
    (hv : ∀ c, v = some (.block c) → κ c = idx) : Classed κ (s.setFreelist p idx v) := by
  refine { h with freelist := fun {p' idx' c} hc => ?_ }
  simp only [State.setFreelist, State.setPool] at hc
  by_cases hp : p' = p
  · subst hp
    simp only [update_self] at hc
    by_cases hi : idx' = idx
    · subst hi
      rw [update_self] at hc
      exact hv c hc
    · rw [update_of_ne hi] at hc
      exact h.freelist hc
  · rw [update_of_ne hp] at hc
    exact h.freelist hc

/-- A block is linked to the head of the list of its class. -/
theorem Classed.setLink {o : Tid} (h : Classed κ s) (hb : s.classIdx b = κ b) :
    Classed κ (s.setWord b ((s.pools o).freelist (s.classIdx b))) := by
  refine { h with word := fun {b' c} hc => ?_, stamped := fun {b' q} hq => ?_ }
  · by_cases hbb : b' = b
    · subst hbb
      simp only [State.setWord, update_self] at hc
      exact (h.freelist hc).trans hb
    · simp only [State.setWord, update_of_ne hbb] at hc
      exact h.word hc
  · by_cases hbb : b' = b
    · subst hbb
      exact hb
    · simp only [State.setWord, update_of_ne hbb] at hq
      exact h.stamped hq

theorem PcClassed.stamp {idx : ℕ} {pc : Pc} (hκ : κ b = idx) (h : PcClassed κ s.classIdx pc) :
    PcClassed κ (Function.update s.classIdx b idx) pc := by
  cases pc with
  | freePut o c i =>
    refine ⟨h.1, ?_⟩
    by_cases hc : c = b
    · subst hc
      rw [update_self]
      exact hκ.symm.trans h.1
    · rw [update_of_ne hc]
      exact h.2
  | _ => exact h

/-- The header that ends `alloc`. -/
theorem Classed.stamp {size idx : ℕ} (h : Classed κ s) (hκ : κ b = idx) :
    Classed κ (stampBlock s t size idx b) where
  word {b' c} hc := by
    by_cases hbb : b' = b
    · subst hbb
      simp only [stampBlock, State.setWord, update_self] at hc
      cases hc
    · simp only [stampBlock, State.setWord, update_of_ne hbb] at hc
      exact h.word hc
  stamped {b' q} hq := by
    by_cases hbb : b' = b
    · subst hbb
      simp only [stampBlock, update_self, hκ]
    · simp only [stampBlock, State.setWord, update_of_ne hbb] at hq
      simp only [stampBlock, update_of_ne hbb]
      exact h.stamped hq
  freelist hc := h.freelist hc
  pc := (forall_update_iff s.pc fun _ => PcClassed κ (Function.update s.classIdx b idx)).mpr
    ⟨trivial, fun u _ => (h.pc u).stamp hκ⟩

/-- A block with no owner is in nobody's books. -/
theorem Classed.allocGlobal (hs : Homed s) (h : Classed κ s) (size total : ℕ) :
    Classed κ (allocGlobal s t size total) := by
  have hfresh {c : ℕ} {p : Tid} (hc : s.home c = some p) : c ≠ s.brk := (hs.used hc).1.ne
  constructor
  case word =>
    intro b c hc
    by_cases hb : b = s.brk
    · simp only [FramePool.allocGlobal, hb, update_self] at hc
      cases hc
    · simp only [FramePool.allocGlobal, update_of_ne hb] at hc
      exact h.word hc
  case stamped =>
    intro b o ho
    by_cases hb : b = s.brk
    · simp only [FramePool.allocGlobal, hb, update_self] at ho
      cases ho
    · simp only [FramePool.allocGlobal, update_of_ne hb] at ho
      simp only [FramePool.allocGlobal, update_of_ne hb]
      exact h.stamped ho
  case freelist => exact h.freelist
  case pc =>
    refine (forall_update_iff s.pc fun _ => PcClassed κ _).mpr ⟨trivial, fun u _ => ?_⟩
    have hu := h.pc u
    have hhome := hs.pc u
    cases hpc : s.pc u with
    | freePut o c i =>
      rw [hpc] at hu hhome
      exact ⟨hu.1, (update_of_ne (hfresh hhome) _ _).trans hu.2⟩
    | _ =>
      rw [hpc] at hu
      exact hu

/-- A block is carved for a class, and nobody has named it before. -/
theorem Classed.carve (hs : Homed s) (h : Classed κ s) (size : ℕ) {idx : ℕ} (hidx : idx ≤ 8) :
    Classed (Function.update κ (carved s t idx) idx) (carve s t size idx) := by
  have hold {c : ℕ} {p : Tid} (hc : s.home c = some p) :
      Function.update κ (carved s t idx) idx c = κ c :=
    update_of_ne (fun heq => not_used_carved hidx (heq ▸ hs.used hc)) _ _
  obtain ⟨hword, -, hpcs, -, hcls⟩ := refill_frame s t idx
  constructor
  case word =>
    intro b c hc
    change (refill s t idx).word b = _ at hc
    rw [hword] at hc
    obtain ⟨p, hb, hp⟩ := hs.word _ hc
    rw [hold hb, hold hp]
    exact h.word hc
  case stamped =>
    intro b o ho
    change (refill s t idx).word b = _ at ho
    change (refill s t idx).classIdx b = _
    rw [hword] at ho
    rw [hcls, hold (hs.home_of_word ho)]
    exact h.stamped ho
  case freelist =>
    intro p i c hc
    rw [(carve_pools s t size idx p).1] at hc
    rw [hold (hs.freelist _ hc)]
    exact h.freelist hc
  case pc =>
    change ∀ u, PcClassed _ (refill s t idx).classIdx (Function.update (refill s t idx).pc t _ u)
    rw [hcls, hpcs]
    refine (forall_update_iff s.pc fun _ => PcClassed _ s.classIdx).mpr
      ⟨update_self .., fun u _ => ?_⟩
    have hu := h.pc u
    have hhome := hs.pc u
    cases hpc : s.pc u <;> rw [hpc] at hu hhome
    case popLink => exact (hold hhome).trans hu
    case stamp => exact (hold hhome).trans hu
    case popPut =>
      exact ⟨(hold hhome.1).trans hu.1, fun c hc => (hold (hhome.2 _ hc)).trans (hu.2 c hc)⟩
    case freePut => exact ⟨(hold hhome).trans hu.1, hu.2⟩
    all_goals trivial

/-- **Classes survive every step**, whatever the interleaving. -/
theorem Classed.step (hs : Homed s) (h : Classed κ s) (hstep : step s (t, a) = some s') :
    ∃ κ', Classed κ' s' := by
  have hpc := h.pc t
  have hmove := move_of_step hs hstep
  clear hstep
  cases hmove with
  | callAlloc size hidle => exact ⟨κ, h.goto trivial⟩
  | callFree b o hidle hb hw =>
    exact ⟨κ, Classed.goto ⟨h.word, h.stamped, h.freelist, h.pc⟩ trivial⟩
  | delete b hidle hb hw => exact ⟨κ, h.word, h.stamped, h.freelist, h.pc⟩
  | global size w htake => exact ⟨κ, h.allocGlobal hs size _⟩
  | carve size idx w htake hidx => exact ⟨_, h.carve hs size hidx⟩
  | pop size idx b w htake hfl => exact ⟨κ, h.goto (h.freelist hfl)⟩
  | link size idx b w hpop =>
    rw [hpop] at hpc
    exact ⟨κ, h.goto ⟨hpc, fun c hc => (h.word hc).trans hpc⟩⟩
  | unlink size idx b next w hpop =>
    rw [hpop] at hpc
    exact ⟨κ, (h.setFreelist hpc.2).goto hpc.1⟩
  | stamp size idx b w hstamp =>
    rw [hstamp] at hpc
    exact ⟨κ, h.stamp hpc⟩
  | enter o b w henter hw =>
    have hb := h.stamped hw
    exact ⟨κ, (h.setLink hb).goto ⟨hb.symm, rfl⟩⟩
  | put o b idx w hput =>
    rw [hput] at hpc
    refine ⟨κ, (h.setFreelist fun c hc => ?_).goto trivial⟩
    cases hc
    exact hpc.1

end Classes

/-! ## Whole runs -/

section Runs

variable {s : State} {as : List (Tid × Act)}

theorem homed_init : Homed {} where
  areas := ⟨fun h => absurd h (by simp [Pool.owns]), fun h => absurd h (by simp [Pool.owns])⟩
  used h := nomatch h
  word _ h := nomatch h
  freelist _ h := nomatch h
  remote _ := rfl
  pc _ := trivial

theorem at_init (q : Place) (b : ℕ) : ¬ At {} {} q b := by
  cases q <;> simp [At, Pc.holds]

theorem ledger_init : Ledger {} {} where
  placed h := nomatch h
  unique h := absurd h (at_init _ _)
  freelist _ _ := rfl
  inbound _ := rfl
  owner h := absurd h (at_init _ _)
  live_nodup := nodup_nil
  free_nodup _ _ := nodup_nil
  used h := absurd h (at_init _ _)
  word_live h := absurd h (by simp)
  pc _ := trivial

/-- In every run, with any frees at all, blocks stay at home. -/
theorem homed_of_run {ok : State → Tid × Act → Prop} (h : Run step ok {} as s) : Homed s :=
  h.invariant homed_init fun hs _ hstep => hs.step hstep

/-- The books of a state are an account of it. -/
theorem Ledger.account {L : Lists} (hs : Homed s) (hL : Ledger s L) : Account s L :=
  { hL with
    remote := fun p => by
      rw [hs.remote p, hL.inbound p]
      rfl
    owner_free := hL.owner
    owner_inbound := fun {b p} h => absurd h (by simp [At, hL.inbound p])
    inbound_nodup := fun p => by
      rw [hL.inbound p]
      exact nodup_nil }

/-- With threads freeing only their own pool's blocks, nobody is ever inside a foreign free. -/
theorem Ledger.foreignFreeFrames {L : Lists} (hs : Homed s) (hL : Ledger s L) :
    ForeignFreeFrames s := by
  intro t o b w s' hfree hne
  have hknows := hL.pc t
  have hhomed := hs.pc t
  cases hpc : s.pc t <;> rw [hpc] at hfree hknows hhomed <;> simp [Pc.freeing] at hfree
  · exact absurd (hfree.1.symm.trans hknows) hne
  · exact absurd (hfree.1.symm.trans hknows.1) hne
  · exact hhomed.elim

theorem classed_of_run {ok : State → Tid × Act → Prop} (h : Run step ok {} as s) : ∃ κ,
    Classed κ s := by
  have hinit : Classed (fun _ => 0) {} :=
    ⟨by rintro _ _ ⟨⟩, by rintro _ _ ⟨⟩, by rintro _ _ _ ⟨⟩, fun _ => trivial⟩
  exact (h.invariant (I := fun s => Homed s ∧ ∃ κ, Classed κ s) ⟨homed_init, _, hinit⟩
    fun ⟨hs, _, hκ⟩ _ hstep => ⟨hs.step hstep, hκ.step hs hstep⟩).2

/-- **A free never goes to the inbound stack.**  In every reachable state the inbound stacks are
empty, and the access that ends a free writes the block to its owner's freelist of the class its
header names, whichever thread makes it. -/
theorem free_pushes_freelist {ok : State → Tid × Act → Prop} (h : Run step ok {} as s) :
    (∀ p, (s.pools p).remoteHead = none) ∧
      ∀ {t o b w s'}, (s.pc t).freeing = some (o, b) → step s (t, .go w) = some s' →
        (s'.pc t).freeing = some (o, b) ∨
          (s'.pools o).freelist (s'.classIdx b) = some (.block b) := by
  have hs := homed_of_run h
  obtain ⟨κ, hκ⟩ := classed_of_run h
  refine ⟨hs.remote, fun {t o b w s'} hfree hstep => ?_⟩
  have hmove := move_of_step hs hstep
  have hpc := hκ.pc t
  clear hstep
  cases hmove with
  | enter o' b' _ h =>
    rw [h] at hfree
    exact .inl (by simpa [State.goto, Pc.freeing] using hfree)
  | put o' b' idx _ h =>
    rw [h] at hfree hpc
    obtain ⟨rfl, rfl⟩ : o' = o ∧ b' = b := by simpa [Pc.freeing] using hfree
    obtain ⟨-, rfl⟩ := hpc
    exact .inr (by simp [State.goto, State.setFreelist, State.setPool])
  | _ => simp_all [Pc.freeing]

/-- **The pool keeps its books when threads free their own blocks.**  In a run in which every freed
block belongs to the freeing thread's pool, a foreign free touches no freelist (there is none), and
every block is always at exactly one place: live, in one thread's hand, or once on one list of its
owner.  So none is handed out twice. -/
theorem account_of_ownFrees (h : Run step OwnFrees {} as s) :
    ForeignFreeFrames s ∧ ∃ L, Account s L := by
  obtain ⟨hs, L, hL⟩ := h.invariant (I := fun s => Homed s ∧ ∃ L, Ledger s L)
    ⟨homed_init, {}, ledger_init⟩ fun ⟨hs, _, hL⟩ hok hstep =>
      ⟨hs.step hstep, hL.step hs hok hstep⟩
  exact ⟨hL.foreignFreeFrames hs, L, hL.account hs⟩

/-- A thread that allocates a frame, frees it and allocates again keeps to its own pool. -/
def ownFrees : List (Tid × Act) :=
  [(0, .alloc 48), (0, .go false), (0, .go false), (0, .free 80), (0, .go false), (0, .go false),
   (0, .alloc 48), (0, .go false), (0, .go false), (0, .go false), (0, .go false)]

theorem account_of_ownFrees_reuse : ∃ s, Run step OwnFrees {} ownFrees s ∧ s.live = [80] ∧
    ForeignFreeFrames s ∧ ∃ L, Account s L := by
  obtain ⟨s, hs, hlive⟩ : ∃ s, Run step OwnFrees {} ownFrees s ∧ s.live = [80] :=
    Run.exists_of_mem (by decide +kernel)
  exact ⟨s, hs, hlive, account_of_ownFrees hs⟩

theorem free_pushes_freelist_foreign : ∃ s s', (s.pc 1).freeing = some (0, 80) ∧
    step s (1, .go false) = some s' ∧ (∀ p, (s.pools p).remoteHead = none) ∧
      (s'.pools 0).freelist (s'.classIdx 80) = some (.block 80) := by
  obtain ⟨s, h, hfree, hstep⟩ : ∃ s, Run step (fun _ _ => True) {}
      [(0, .alloc 48), (0, .go false), (0, .go false), (1, .free 80), (1, .go false)] s ∧
        (s.pc 1).freeing = some (0, 80) ∧
          ((step s (1, .go false)).map fun s' => (s'.pc 1).freeing) = some none :=
    Run.exists_of_mem (by decide +kernel)
  obtain ⟨s', hs', hdone⟩ := Option.map_eq_some_iff.mp hstep
  obtain ⟨hempty, hfreed⟩ := free_pushes_freelist h
  exact ⟨s, s', hfree, hs', hempty, (hfreed hfree hs').resolve_left (by simp [hdone])⟩

/-- Two frames on one thread, both freed by another while the owner is inside `alloc`. -/
def racyFrees : List (Tid × Act) :=
  [(0, .alloc 48), (0, .go false), (0, .go false), (0, .alloc 48), (0, .go false), (0, .go false),
   -- the other thread frees 144; the owner reads it off the freelist again
   (1, .free 144), (1, .go false), (1, .go false), (0, .alloc 48), (0, .go false), (0, .go false),
   -- the other thread frees 80 and links it to the head it sees, before the owner unlinks that head
   (1, .free 80), (1, .go false), (0, .go false), (0, .go false), (1, .go false),
   -- two more allocations: 80, and then 144 again
   (0, .alloc 48), (0, .go false), (0, .go false), (0, .go false), (0, .go false),
   (0, .alloc 48), (0, .go false), (0, .go false), (0, .go false), (0, .go false)]

/-- **Handed out twice**: after `racyFrees` the frame at 144 is live twice, and no account of that
state exists. -/
theorem racyFrees_no_account : ∃ s, Run step (fun _ _ => True) {} racyFrees s ∧
    s.live = [144, 80, 144] ∧ ¬ ∃ L, Account s L := by
  obtain ⟨s, hs, hlive⟩ : ∃ s, Run step (fun _ _ => True) {} racyFrees s ∧
    s.live = [144, 80, 144] :=
    Run.exists_of_mem (by decide +kernel)
  refine ⟨s, hs, hlive, fun ⟨L, hA⟩ => ?_⟩
  have hnodup := hA.live_nodup
  rw [hlive] at hnodup
  exact absurd hnodup (by decide)

end Runs

end Cornet.FramePool
