import Cornet.Tls.Stream

/-!
# Tls/Duplex — what a reader and a writer sharing one scratch send and receive

    sent ++ (the piece in the scratch) = taken        fed ++ (the bytes in the scratch) = received

The two equations hold along every run in which the scratch is written only while the other
coroutine does not rely on it (`apart`), and nothing is taken or received after bytes were lost to
an error (`faithful_of_apart`).  Without that condition they fail in the ordinary case of a reader
waiting for input while a writer sends (`overlap_not_faithful`).
-/

namespace Cornet.Tls

open List Function

/-! ## Who relies on the scratch -/

/-- The coroutine needs what the scratch holds: a piece not completely sent, or bytes not yet
fed. -/
def Pc.relies : Pc → Bool
  | .sending _ _ _ _ _ => true
  | .sent _ n off (some w) _ _ => off + w < n
  | .received (some n) _ => n != 0
  | _ => false

/-- Resuming this coroutine would replace the scratch by a larger one. -/
def grows (s : State) (r : Role) (fed : Bool) : Bool :=
  s.size < kMaxIoBiteSize &&
    match s.pc r with
    | .sent _ n off (some w) _ _ => w != 0 && off + w == n && n == s.size
    | .received (some n) _ => fed && n == s.size
    | _ => false

/-- The scratch is written — by `take_output`, by a completing recv, by growth — only while the
other coroutine does not rely on it (for growth: is not inside the call at all), and neither side
goes on after bytes were lost to an error. -/
def apart (s : State) : Act → Bool
  | .go =>
    match s.running with
    | none => true
    | some r =>
      match s.pc r with
      | .flush _ _ _ => s.wbio == [] || !(s.pc r.other).relies && !s.lostOut
      | _ => true
  | .complete r (.received l) => l == [] || !(s.pc r.other).relies && !s.lostIn
  | .resume r fed => !grows s r fed || s.pc r.other == .idle
  | _ => true

/-- What went out is what was taken, what went in is what was received, in order and up to what is
still on its way; with nothing under way and nothing lost to an error, all of it. -/
structure Faithful (s : State) : Prop where
  sent_prefix : s.sent <+: s.taken
  fed_prefix : s.fed <+: s.received
  sent_all : s.lostOut = false → (∀ r, (s.pc r).relies = false) → s.sent = s.taken
  fed_all : s.lostIn = false → (∀ r, (s.pc r).relies = false) → s.fed = s.received

/-- A stream between calls, with nothing recorded yet: after the handshake the scratch may or may
not have been allocated and grown, and output may be pending. -/
structure Idle (s : State) : Prop where
  pc : ∀ r, s.pc r = .idle
  taken : s.taken = []
  sent : s.sent = []
  received : s.received = []
  fed : s.fed = []
  fresh : s.bite < s.fresh
  size : 0 < s.size

/-! ## The invariant -/

/-- The bytes of its piece a coroutine has yet to hand to the socket. -/
def Pc.unsent (mem : ℕ → Mem) : Pc → List Byte
  | .sending buf n off _ _ => (mem buf).read off (n - off)
  | .sent buf n off (some (w + 1)) _ _ => (mem buf).read (off + (w + 1)) (n - (off + (w + 1)))
  | _ => []

/-- The bytes a coroutine has received and not yet fed to the engine. -/
def Pc.unfed (m : Mem) : Pc → List Byte
  | .received (some n) _ => m.read 0 n
  | _ => []

/-- The buffer a coroutine points into is the current scratch. -/
def Pc.PtrOk (bite : ℕ) : Pc → Prop
  | .flush buf _ _ => buf = bite ∧ bite ≠ 0
  | .sending buf n off _ _ => buf = bite ∧ bite ≠ 0 ∧ off < n
  | .sent buf n off res _ _ => buf = bite ∧ bite ≠ 0 ∧ off < n ∧ ∀ w ∈ res, off + w ≤ n
  | .receiving buf _ _ => buf = bite ∧ bite ≠ 0
  | .received _ _ => bite ≠ 0
  | .idle | .engine _ | .fill _ => True

/-- Of a list for each coroutine, both. -/
def both (f : Role → List Byte) : List Byte := f .reader ++ f .writer

structure Sound (s : State) : Prop where
  out : ∃ gone, s.sent ++ both (fun r => (s.pc r).unsent s.mem) ++ gone = s.taken ∧
    (s.lostOut = false → gone = [])
  lost : s.lostOut = true → ∀ r, (s.pc r).unsent s.mem = []
  inn : ∃ gone, s.fed ++ both (fun r => (s.pc r).unfed (s.mem s.bite)) ++ gone = s.received ∧
    (s.lostIn = false → gone = [])
  lostIn : s.lostIn = true → ∀ r, (s.pc r).unfed (s.mem s.bite) = []
  one : ∃ r, (s.pc r).relies = false
  ptr : ∀ r, (s.pc r).PtrOk s.bite
  fresh : s.bite < s.fresh
  size : 0 < s.size

section Pc

variable {pc : Pc} {mem mem' : ℕ → Mem} {m m' : Mem} {bite bite' : ℕ}

theorem unsent_of_not_relies (h : pc.relies = false) : pc.unsent mem = [] := by
  rcases pc with _ | _ | _ | _ | ⟨buf, n, off, _ | _ | w, job, next⟩ | _ | _ | _ <;>
    simp_all [Pc.relies, Pc.unsent]

theorem unfed_of_not_relies (h : pc.relies = false) : pc.unfed m = [] := by
  rcases pc with _ | _ | _ | _ | _ | _ | _ | ⟨_ | n, job⟩ <;> simp_all [Pc.relies, Pc.unfed]

theorem PtrOk_of_null (h : pc.PtrOk 0) : pc.PtrOk bite := by
  cases pc <;> simp_all [Pc.PtrOk]

end Pc

section Both

variable {f g : Role → List Byte} {r : Role}

theorem Role.forall {P : Role → Prop} : (∀ q, P q) ↔ P r ∧ P r.other := by
  cases r <;> exact ⟨fun h => ⟨h _, h _⟩, fun h q => by cases q <;> simp_all [Role.other]⟩

theorem Role.other_ne : r.other ≠ r := by cases r <;> decide

theorem both_eq (h : f r.other = []) : both f = f r := by
  cases r <;> simp_all [both, Role.other]

theorem both_nil (h : ∀ r, f r = []) : both f = [] := by simp [both, h]

end Both

section Sound

variable {s : State} {r : Role} {pc : Pc} {junk : Mem}

theorem Sound.other (hs : Sound s) (h : (s.pc r).relies = true) : (s.pc
    r.other).relies = false := by
  obtain ⟨q, hq⟩ := hs.one
  rcases eq_or_ne q r with rfl | hqr
  · rw [h] at hq
    cases hq
  · obtain rfl : q = r.other := by
      cases q <;> cases r <;> first | rfl | exact absurd rfl hqr
    exact hq

theorem forall_goto {P : Role → Pc → Prop} (hr : P r pc) (h : ∀ q, P q (s.pc q)) (q : Role) :
    P q ((s.goto r pc).pc q) :=
  (forall_update_iff s.pc P).mpr ⟨hr, fun q _ => h q⟩ q

/-- A coroutine moves on owing what it owed. -/
theorem Sound.goto (hs : Sound s) (hout : pc.unsent s.mem = (s.pc r).unsent s.mem)
    (hinn : pc.unfed (s.mem s.bite) = (s.pc r).unfed (s.mem s.bite))
    (hrel : (s.pc r).relies = false → pc.relies = false) (hptr : pc.PtrOk s.bite) :
    Sound (s.goto r pc) := by
  have hout' : ∀ q, ((s.goto r pc).pc q).unsent s.mem = (s.pc q).unsent s.mem :=
    forall_goto (P := fun q pc => pc.unsent s.mem = (s.pc q).unsent s.mem) hout fun _ => rfl
  have hinn' : ∀ q, ((s.goto r pc).pc q).unfed (s.mem s.bite) = (s.pc q).unfed (s.mem s.bite) :=
    forall_goto (P := fun q pc => pc.unfed (s.mem s.bite) = (s.pc q).unfed (s.mem s.bite)) hinn
      fun _ => rfl
  have hrel' : ∀ q, (s.pc q).relies = false → ((s.goto r pc).pc q).relies = false :=
    forall_goto (P := fun q pc => (s.pc q).relies = false → pc.relies = false) hrel fun _ h => h
  exact
    { out := by
        obtain ⟨gone, hgone⟩ := hs.out
        exact ⟨gone, (congrArg both (funext hout')).symm ▸ hgone⟩
      lost := fun h q => (hout' q).trans (hs.lost h q)
      inn := by
        obtain ⟨gone, hgone⟩ := hs.inn
        exact ⟨gone, (congrArg both (funext hinn')).symm ▸ hgone⟩
      lostIn := fun h q => (hinn' q).trans (hs.lostIn h q)
      one := hs.one.imp hrel'
      ptr := forall_goto hptr hs.ptr
      fresh := hs.fresh
      size := hs.size }

/-- A coroutine that owes nothing moves on owing nothing. -/
theorem Sound.goto_quiet (hs : Sound s) (hr : (s.pc r).relies = false) (hpc : pc.relies = false)
    (hptr : pc.PtrOk s.bite) : Sound (s.goto r pc) :=
  hs.goto ((unsent_of_not_relies hpc).trans (unsent_of_not_relies hr).symm)
    ((unfed_of_not_relies hpc).trans (unfed_of_not_relies hr).symm) (fun _ => hpc) hptr

theorem Sound.suspend (h : Sound (s.goto r pc)) : Sound (s.suspend r pc) := { h with }

/-- A call returns with nothing owed. -/
theorem Sound.ret (hs : Sound s) (hout : (s.pc r).unsent s.mem = [])
    (hinn : (s.pc r).unfed (s.mem s.bite) = []) : Sound (s.suspend r .idle) := by
  have h : Sound (s.goto r .idle) := hs.goto hout.symm hinn.symm (fun _ => rfl) trivial
  exact h.suspend

theorem Sound.ret_quiet (hs : Sound s) (hr : (s.pc r).relies = false) : Sound (s.suspend r .idle) :=
  hs.ret (unsent_of_not_relies hr) (unfed_of_not_relies hr)

/-- With nobody pointing into the scratch, it may be replaced. -/
theorem Sound.rescratch (hs : Sound s) (hptr : ∀ q b, (s.pc q).PtrOk b) (mem : ℕ → Mem)
    {bite fresh size : ℕ} (hfresh : bite < fresh) (hsize : 0 < size) :
    Sound { s with mem := mem, bite := bite, size := size, fresh := fresh } := by
  have hrel : ∀ q, (s.pc q).relies = false := fun q => by
    have h := hptr q 0
    cases hpc : s.pc q <;> simp_all [Pc.PtrOk, Pc.relies]
  have hout : ∀ mem, both (fun q => (s.pc q).unsent mem) = [] := fun mem =>
    both_nil fun q => unsent_of_not_relies (hrel q)
  have hinn : ∀ m, both (fun q => (s.pc q).unfed m) = [] := fun m =>
    both_nil fun q => unfed_of_not_relies (hrel q)
  exact
    { out := by simpa only [hout] using hs.out
      lost := fun _ q => unsent_of_not_relies (hrel q)
      inn := by simpa only [hinn] using hs.inn
      lostIn := fun _ q => unfed_of_not_relies (hrel q)
      one := hs.one
      ptr := fun q => hptr q bite
      fresh := hfresh
      size := hsize }

theorem Sound.ensureIoBite (hs : Sound s) : Sound s.ensureIoBite := by
  rw [State.ensureIoBite]
  split
  · rename_i h
    exact hs.rescratch (fun q _ => PtrOk_of_null (h ▸ hs.ptr q)) _ (Nat.lt_succ_self _) hs.size
  · exact hs

theorem ensureIoBite_ne (hs : Sound s) : s.ensureIoBite.bite ≠ 0 := by
  have hfresh := hs.fresh
  rw [State.ensureIoBite]
  split
  · change s.fresh ≠ 0
    omega
  · assumption

theorem pc_ensureIoBite : s.ensureIoBite.pc = s.pc := by
  rw [State.ensureIoBite]
  split <;> rfl

theorem Sound.maybeGrowIoBite (hs : Sound s) (hptr : ∀ q b, (s.pc q).PtrOk b) :
    Sound (s.maybeGrowIoBite junk) := by
  rw [State.maybeGrowIoBite]
  split
  · exact hs.rescratch hptr _ (Nat.lt_succ_self _) (Nat.succ_pos _)
  · exact hs

theorem maybeGrowIoBite_ne (hs : Sound s) (h : s.bite ≠ 0) : (s.maybeGrowIoBite junk).bite ≠ 0 := by
  have hfresh := hs.fresh
  rw [State.maybeGrowIoBite]
  split
  · change s.fresh ≠ 0
    omega
  · exact h

theorem goto_goto {pc' : Pc} : (s.goto r pc').goto r pc = s.goto r pc := by
  simp only [State.goto, update_idem]

theorem maybeGrowIoBite_goto :
    (s.goto r pc).maybeGrowIoBite junk = (s.maybeGrowIoBite junk).goto r pc := by
  simp only [State.maybeGrowIoBite, State.goto, State.alloc]
  by_cases h : s.size < kMaxIoBiteSize
  · simp only [h, if_true]
  · simp only [h, if_false]

/-- Entering `flush_output`. -/
theorem Sound.enterFlush (hs : Sound s) (hr : (s.pc r).relies = false) (job : Job) (next : Next) :
    Sound (s.enterFlush r job next) :=
  hs.ensureIoBite.goto_quiet (by rw [pc_ensureIoBite]; exact hr) rfl ⟨rfl, ensureIoBite_ne hs⟩

theorem Sound.writevFrom (hs : Sound s) (hr : (s.pc r).relies = false) (rest : List Byte) :
    Sound (writevFrom s r rest) := by
  rw [Tls.writevFrom]
  split
  · exact hs.enterFlush hr _ _
  · exact hs.goto_quiet hr rfl trivial

theorem Sound.afterEngine (hs : Sound s) (hr : (s.pc r).relies = false) (job : Job)
    (res : EngineStep) (out : List Byte) : Sound (afterEngine s r job res out) := by
  have hs' : Sound { s with wbio := s.wbio ++ out } := { hs with }
  unfold Tls.afterEngine
  dsimp only
  split
  · exact hs'.enterFlush hr _ _
  · exact hs'.enterFlush hr _ _
  · exact hs'.writevFrom hr _
  · exact hs'.enterFlush hr _ _
  · exact hs'.enterFlush hr _ _
  · exact hs'.ret_quiet hr

theorem Sound.afterFlush (hs : Sound s) (hr : (s.pc r).relies = false) (job : Job) (next : Next) :
    Sound (afterFlush s r job next) := by
  cases next with
  | again | fill => exact hs.goto_quiet hr rfl trivial
  | fillIfDry =>
    exact hs.goto_quiet hr (by split <;> rfl) (by split <;> trivial)
  | ret => exact hs.ret_quiet hr

/-- A step of `r` alone, to `pc`, while the other coroutine owes nothing: what has to be checked is
what `r` owes afterwards. -/
theorem Sound.of_step {s' : State} (hs : Sound s) (ho : (s.pc r.other).relies = false)
    (hpc : s'.pc = Function.update s.pc r pc) (hbite : s'.bite = s.bite)
      (hfresh : s'.fresh = s.fresh)
    (hsize : s'.size = s.size)
    (hout : ∃ gone, s'.sent ++ pc.unsent s'.mem ++ gone = s'.taken ∧
      (s'.lostOut = false → gone = []))
    (hlost : s'.lostOut = true → pc.unsent s'.mem = [])
    (hinn : ∃ gone, s'.fed ++ pc.unfed (s'.mem s.bite) ++ gone = s'.received ∧
      (s'.lostIn = false → gone = []))
    (hlostIn : s'.lostIn = true → pc.unfed (s'.mem s.bite) = [])
    (hptr : pc.PtrOk s.bite) : Sound s' := by
  have hr : s'.pc r = pc := hpc ▸ update_self ..
  have ho' : s'.pc r.other = s.pc r.other := hpc ▸ update_of_ne Role.other_ne ..
  rw [← ho'] at ho
  rw [← hr, ← hbite] at hptr
  refine
    { out := ?_
      lost := fun h => Role.forall.mpr ⟨hr ▸ hlost h, unsent_of_not_relies ho⟩
      inn := ?_
      lostIn := fun h => Role.forall.mpr ⟨hr ▸ hbite ▸ hlostIn h, unfed_of_not_relies ho⟩
      one := ⟨_, ho⟩
      ptr := Role.forall.mpr ⟨hptr, ho' ▸ hbite ▸ hs.ptr _⟩
      fresh := hbite ▸ hfresh ▸ hs.fresh
      size := hsize ▸ hs.size }
  · rw [both_eq (r := r) (unsent_of_not_relies ho), hr]
    exact hout
  · rw [both_eq (r := r) (unfed_of_not_relies ho), hr, hbite]
    exact hinn

theorem Sound.out_of_other (hs : Sound s) (ho : (s.pc r.other).relies = false) :
    ∃ gone, s.sent ++ (s.pc r).unsent s.mem ++ gone = s.taken ∧
      (s.lostOut = false → gone = []) := by
  have hout := hs.out
  rwa [both_eq (r := r) (unsent_of_not_relies ho)] at hout

theorem Sound.inn_of_other (hs : Sound s) (ho : (s.pc r.other).relies = false) :
    ∃ gone, s.fed ++ (s.pc r).unfed (s.mem s.bite) ++ gone = s.received ∧
      (s.lostIn = false → gone = []) := by
  have hinn := hs.inn
  rwa [both_eq (r := r) (unfed_of_not_relies ho)] at hinn

@[simp] theorem goto_self : (s.goto r pc).pc r = pc := update_self ..

@[simp] theorem goto_other : (s.goto r pc).pc r.other = s.pc r.other :=
  update_of_ne Role.other_ne ..

/-- `take_output`: the piece goes into the scratch, which nobody else relies on. -/
theorem Sound.takeOutput (hs : Sound s) (hr : (s.pc r).relies = false)
    (ho : (s.pc r.other).relies = false) (hlost : s.lostOut = false) (hw : s.wbio ≠ [])
    (hbite : s.bite ≠ 0) (job : Job) (next : Next) : Sound (takeOutput s r s.bite job next) := by
  obtain ⟨gone, hout, hgone⟩ := hs.out_of_other ho
  obtain ⟨gone', hinn, hgone'⟩ := hs.inn_of_other ho
  have hpos : 0 < (s.wbio.take s.size).length := by
    have := length_pos_of_ne_nil hw
    have := hs.size
    rw [length_take]
    omega
  rw [unsent_of_not_relies hr, append_nil, hgone hlost, append_nil] at hout
  rw [unfed_of_not_relies hr] at hinn
  refine hs.of_step ho rfl rfl rfl rfl ⟨[], ?_, fun _ => rfl⟩ ?_ ⟨gone', hinn, hgone'⟩
    (fun _ => rfl)
    ⟨rfl, hbite, hpos⟩
  · change s.sent ++ (Function.update s.mem s.bite ((s.mem s.bite).write 0 (s.wbio.take s.size))
      s.bite).read 0 (s.wbio.take s.size).length ++ [] = s.taken ++ s.wbio.take s.size
    rw [update_self, Mem.read_write_self, append_nil, hout]
  · intro h
    exact absurd (hlost.symm.trans h) (by simp)

/-- A send completes, in part or in full; a send of nothing, or an error, loses the rest. -/
theorem Sound.sent {buf n off : ℕ} {job : Job} {next : Next} (hs : Sound s)
    (hpc : s.pc r = .sending buf n off job next) (w : ℕ) (hw : off + w ≤ n) (res : Option ℕ)
    (hres : res = some w ∨ res = none ∧ w = 0) :
    Sound { s.goto r (.sent buf n off res job next) with
      sent := s.sent ++ (s.mem buf).read off w
      lostOut := s.lostOut || w == 0 } := by
  have hptr := hs.ptr r
  rw [hpc] at hptr
  obtain ⟨rfl, hbite, hlt⟩ := hptr
  have ho : (s.pc r.other).relies = false := hs.other (by rw [hpc]; rfl)
  have hne : (s.pc r).unsent s.mem ≠ [] := by
    rw [hpc]
    exact fun h => by have := Mem.read_eq_nil.mp h; omega
  have hkept : s.lostOut = false := by
    by_contra h
    exact hne (hs.lost (by simpa using h) r)
  obtain ⟨gone, hout, hgone⟩ := hs.out_of_other ho
  obtain ⟨gone', hinn, hgone'⟩ := hs.inn_of_other ho
  rw [hgone hkept, append_nil] at hout
  rw [hpc] at hout hinn
  have hsplit := (s.mem s.bite).read_split off (show w ≤ n - off by omega)
  rw [Nat.sub_sub] at hsplit
  refine hs.of_step ho rfl rfl rfl rfl ?_ ?_ ⟨gone', hinn, hgone'⟩ (fun _ => rfl)
    ⟨rfl, hbite, hlt, fun v hv => ?_⟩
  · rcases w with _ | w
    · refine ⟨(s.mem s.bite).read off (n - off), ?_, fun h => by simp at h⟩
      rcases hres with rfl | ⟨rfl, -⟩ <;> simpa [Pc.unsent, State.goto] using hout
    · obtain rfl : res = some (w + 1) := by simpa using hres
      refine ⟨[], ?_, fun _ => rfl⟩
      change s.sent ++ (s.mem s.bite).read off (w + 1) ++
        (s.mem s.bite).read (off + (w + 1)) (n - (off + (w + 1))) ++ [] = s.taken
      rw [← hout, append_nil, append_assoc, ← hsplit]
      rfl
  · intro h
    obtain rfl : w = 0 := by simpa [hkept] using h
    rcases hres with rfl | ⟨rfl, -⟩ <;> rfl
  · rcases hres with rfl | ⟨rfl, -⟩
    · obtain rfl := Option.some.inj hv
      exact hw
    · cases hv

/-- A recv completes into the scratch, which nobody else relies on. -/
theorem Sound.received {buf len : ℕ} {job : Job} {l : List Byte} (hs : Sound s)
    (hpc : s.pc r = .receiving buf len job)
    (hok : l = [] ∨ (s.pc r.other).relies = false ∧ s.lostIn = false) :
    Sound { s.goto r (.received (some l.length) job) with
      mem := Function.update s.mem buf ((s.mem buf).write 0 l)
      received := s.received ++ l } := by
  have hptr := hs.ptr r
  have hr : (s.pc r).relies = false := by rw [hpc]; rfl
  rw [hpc] at hptr
  obtain ⟨rfl, hbite⟩ := hptr
  rcases hok with rfl | ⟨ho, hlost⟩
  · have h : Sound (s.goto r (.received (some 0) job)) := hs.goto_quiet hr rfl hbite
    simpa [State.goto] using h
  · obtain ⟨gone, hout, hgone⟩ := hs.out_of_other ho
    obtain ⟨gone', hinn, hgone'⟩ := hs.inn_of_other ho
    rw [unsent_of_not_relies hr] at hout
    rw [unfed_of_not_relies hr, append_nil, hgone' hlost, append_nil] at hinn
    refine hs.of_step ho rfl rfl rfl rfl ⟨gone, hout, hgone⟩ (fun _ => rfl)
      ⟨[], ?_, fun _ => rfl⟩ ?_ hbite
    · change s.fed ++ (Function.update s.mem s.bite ((s.mem s.bite).write 0 l) s.bite).read 0
        l.length
        ++ [] = s.received ++ l
      rw [update_self, Mem.read_write_self, append_nil, hinn]
    · intro h
      exact absurd (hlost.symm.trans h) (by simp)

/-- Growth, with the other coroutine outside any call. -/
theorem Sound.grow (hs : Sound s) (hr : (s.pc r).relies = false)
    (ho : s.size < kMaxIoBiteSize → s.pc r.other = .idle) (hpc : pc.relies = false)
    (hptr : pc.PtrOk (s.maybeGrowIoBite junk).bite) :
    Sound ((s.maybeGrowIoBite junk).goto r pc) := by
  by_cases hsize : s.size < kMaxIoBiteSize
  · have hidle : Sound (s.goto r .idle) := hs.goto_quiet hr rfl trivial
    have hfree : ∀ q b, ((s.goto r .idle).pc q).PtrOk b :=
      Role.forall.mpr ⟨fun b => by rw [goto_self]; trivial, fun b => by
        rw [goto_other, ho hsize]; trivial⟩
    have hgrown : Sound ((s.maybeGrowIoBite junk).goto r .idle) :=
      maybeGrowIoBite_goto ▸ hidle.maybeGrowIoBite hfree
    have h : Sound (((s.maybeGrowIoBite junk).goto r .idle).goto r pc) :=
      hgrown.goto_quiet (by rw [goto_self]; rfl) hpc hptr
    rwa [goto_goto] at h
  · rw [State.maybeGrowIoBite, if_neg hsize] at hptr ⊢
    exact hs.goto_quiet hr hpc hptr

/-- After a send: the rest of the piece, or the head of the loop. -/
theorem Sound.afterSend {buf n off w : ℕ} {job : Job} {next : Next} (hs : Sound s)
    (hpc : s.pc r = .sent buf n off (some (w + 1)) job next)
    (ho : off + (w + 1) = n → n = s.size → s.size < kMaxIoBiteSize → s.pc r.other = .idle) :
    Sound (afterSend junk s r buf n (off + (w + 1)) job next) := by
  have hptr := hs.ptr r
  rw [hpc] at hptr
  obtain ⟨rfl, hbite, hlt, hle⟩ := hptr
  have hle := hle _ rfl
  unfold Tls.afterSend
  split
  · rename_i hmore
    refine Sound.suspend (hs.goto ?_ ?_ ?_ ⟨rfl, hbite, hmore⟩)
    · rw [hpc]
      rfl
    · rw [hpc]
      rfl
    · rw [hpc]
      simp [Pc.relies, hmore]
  · rename_i hdone
    have hr : (s.pc r).relies = false := by
      rw [hpc]
      simpa [Pc.relies] using hdone
    split
    · exact hs.grow hr (ho (by omega) ‹_›) rfl ⟨rfl, maybeGrowIoBite_ne hs hbite⟩
    · exact hs.goto_quiet hr rfl ⟨rfl, hbite⟩

/-- What was received is fed to the engine as it stands in the scratch, or refused and lost. -/
theorem Sound.feed {n : ℕ} {job : Job} (hs : Sound s) (hpc : s.pc r = .received (some n) job)
    (hn : n ≠ 0) : Sound ({ s with fed := s.fed ++ (s.mem s.bite).read 0 n }.goto r (.engine job)) ∧
      Sound { s.suspend r .idle with lostIn := true } := by
  have hrel : (s.pc r).relies = true := by
    rw [hpc]
    simpa [Pc.relies] using hn
  have ho := hs.other hrel
  obtain ⟨gone, hout, hgone⟩ := hs.out_of_other ho
  obtain ⟨gone', hinn, hgone'⟩ := hs.inn_of_other ho
  have hne : (s.pc r).unfed (s.mem s.bite) ≠ [] := by
    rw [hpc]
    exact fun h => hn (Mem.read_eq_nil.mp h)
  have hkept : s.lostIn = false := by
    by_contra h
    exact hne (hs.lostIn (by simpa using h) r)
  rw [hgone' hkept, append_nil] at hinn
  rw [hpc] at hout hinn
  constructor
  · refine hs.of_step ho rfl rfl rfl rfl ⟨gone, hout, hgone⟩ (fun _ => rfl) ⟨[], ?_, fun _ => rfl⟩
      (fun _ => rfl) trivial
    change s.fed ++ (s.mem s.bite).read 0 n ++ [] ++ [] = s.received
    rw [append_nil, append_nil]
    exact hinn
  · refine hs.of_step ho rfl rfl rfl rfl ⟨gone, hout, hgone⟩ (fun _ => rfl)
      ⟨(s.mem s.bite).read 0 n, ?_, fun h => by cases h⟩ (fun _ => rfl) trivial
    change s.fed ++ [] ++ (s.mem s.bite).read 0 n = s.received
    rw [append_nil]
    exact hinn

theorem Sound.afterRecv {n : ℕ} {job : Job} {fed : Bool} (hs : Sound s)
    (hpc : s.pc r = .received (some n) job) (hn : n ≠ 0)
    (ho : fed = true → n = s.size → s.size < kMaxIoBiteSize → s.pc r.other = .idle) :
    Sound (afterRecv junk s r n job fed) := by
  obtain ⟨hfed, hrefused⟩ := hs.feed hpc hn
  unfold Tls.afterRecv
  cases fed with
  | false => exact hrefused
  | true =>
    rw [if_pos rfl]
    dsimp only
    split
    · rename_i hsize
      have hrel : (({ s with fed := s.fed ++ (s.mem s.bite).read 0 n }.goto r (.engine job)).pc
          r).relies = false := by
        rw [goto_self]
        rfl
      have h : Sound ((({ s with fed := s.fed ++ (s.mem s.bite).read 0 n }.goto r
          (.engine job)).maybeGrowIoBite junk).goto r (.engine job)) :=
        hfed.grow hrel (fun hlt => by rw [goto_other]; exact ho rfl hsize hlt) rfl trivial
      rwa [maybeGrowIoBite_goto, goto_goto] at h
    · exact hfed

theorem Sound.advance {s' : State} (hs : Sound s) (hrun : s.running = some r)
    (hok : apart s .go = true) (h : advance s r = some s') : Sound s' := by
  unfold Tls.advance at h
  split at h
  · rename_i buf job next hpc
    obtain rfl := Option.some.inj h
    have hrel : (s.pc r).relies = false := by
      rw [hpc]
      rfl
    have hptr := hs.ptr r
    rw [hpc] at hptr
    obtain ⟨rfl, hbite⟩ := hptr
    split
    · exact hs.afterFlush hrel job next
    · rename_i hw
      have hfree : (s.pc r.other).relies = false ∧ s.lostOut = false := by
        simpa [apart, hrun, hpc, hw] using hok
      exact hs.takeOutput hrel hfree.1 hfree.2 hw hbite job next
  · rename_i job hpc
    obtain rfl := Option.some.inj h
    refine Sound.suspend (hs.ensureIoBite.goto_quiet ?_ rfl ⟨rfl, ensureIoBite_ne hs⟩)
    rw [pc_ensureIoBite, hpc]
    rfl
  · cases h

theorem Sound.complete {s' : State} {answer : Answer} (hs : Sound s)
    (hok : apart s (.complete r answer) = true) (h : complete s r answer = some s') : Sound s' := by
  unfold Tls.complete at h
  split at h
  · rename_i buf n off job next w hpc
    split at h
    · obtain rfl := Option.some.inj h
      exact hs.sent hpc w ‹_› _ (.inl rfl)
    · cases h
  · rename_i buf n off job next hpc
    obtain rfl := Option.some.inj h
    have hlt : off < n := by
      have hptr := hs.ptr r
      rw [hpc] at hptr
      exact hptr.2.2
    simpa [State.goto] using hs.sent hpc 0 hlt.le none (.inr ⟨rfl, rfl⟩)
  · rename_i buf len job l hpc
    split at h
    · obtain rfl := Option.some.inj h
      exact hs.received hpc (by simpa [apart] using hok)
    · cases h
  · rename_i buf len job hpc
    obtain rfl := Option.some.inj h
    have hptr := hs.ptr r
    rw [hpc] at hptr
    exact hs.goto_quiet (by rw [hpc]; rfl) rfl hptr.2
  · cases h

theorem Sound.resume {s' : State} {fed : Bool} (hs : Sound s)
    (hok : apart s (.resume r fed) = true) (h : resume junk s r fed = some s') : Sound s' := by
  have hs' : Sound { s with running := some r } := { hs with }
  have hidle : grows s r fed = true → s.pc r.other = .idle := fun hg => by
    simpa [apart, hg] using hok
  unfold Tls.resume at h
  dsimp only at h
  split at h
  · rename_i hpc
    obtain rfl := Option.some.inj h
    exact hs'.ret (by rw [hpc]; rfl) (by rw [hpc]; rfl)
  · rename_i hpc
    obtain rfl := Option.some.inj h
    exact hs'.ret (by rw [hpc]; rfl) (by rw [hpc]; rfl)
  · rename_i buf n off w job next hw hpc
    obtain rfl := Option.some.inj h
    obtain ⟨w, rfl⟩ : ∃ v, w = v + 1 := Nat.exists_eq_succ_of_ne_zero hw
    refine hs'.afterSend hpc fun hoff hn hlt => hidle ?_
    have hlt : s.size < kMaxIoBiteSize := hlt
    have hn : n = s.size := hn
    simp [grows, hpc, hoff, hn, hlt]
  · rename_i hpc
    obtain rfl := Option.some.inj h
    exact hs'.ret_quiet (by rw [hpc]; rfl)
  · rename_i hpc
    obtain rfl := Option.some.inj h
    exact hs'.ret_quiet (by rw [hpc]; rfl)
  · rename_i n job hn hpc
    obtain rfl := Option.some.inj h
    refine hs'.afterRecv hpc hn fun hfed hsize hlt => hidle ?_
    have hlt : s.size < kMaxIoBiteSize := hlt
    have hsize : n = s.size := hsize
    simp [grows, hpc, hfed, hsize, hlt]
  · cases h

/-- **One step keeps the two equations**, as long as the scratch is written apart. -/
theorem Sound.step {s' : State} {a : Act} (hs : Sound s) (hok : apart s a = true)
    (hstep : step junk s a = some s') : Sound s' := by
  cases a with
  | call q data =>
    simp only [Tls.step] at hstep
    split at hstep
    · rename_i hcond
      have hs' : Sound { s with running := some q } := { hs with }
      have hrel : (s.pc q).relies = false := by
        rw [hcond.2]
        rfl
      cases q with
      | reader =>
        obtain rfl := Option.some.inj hstep
        exact hs'.goto_quiet hrel rfl trivial
      | writer =>
        obtain rfl := Option.some.inj hstep
        exact hs'.writevFrom hrel data
    · cases hstep
  | ssl res out =>
    simp only [Tls.step] at hstep
    split at hstep
    · rename_i q hrun
      split at hstep
      · rename_i job hpc
        obtain rfl := Option.some.inj hstep
        exact hs.afterEngine (by rw [hpc]; rfl) job res out
      · cases hstep
    · cases hstep
  | go =>
    obtain ⟨q, hrun, hq⟩ := Option.bind_eq_some_iff.mp hstep
    exact hs.advance hrun hok hq
  | complete q answer => exact hs.complete hok hstep
  | resume q fed =>
    simp only [Tls.step] at hstep
    split at hstep
    · exact hs.resume hok hstep
    · cases hstep

theorem Idle.sound (h : Idle s) : Sound s := by
  have hrel : ∀ q, (s.pc q).relies = false := fun q => by rw [h.pc q]; rfl
  have hout : both (fun q => (s.pc q).unsent s.mem) = [] :=
    both_nil fun q => unsent_of_not_relies (hrel q)
  have hinn : both (fun q => (s.pc q).unfed (s.mem s.bite)) = [] :=
    both_nil fun q => unfed_of_not_relies (hrel q)
  exact
    { out := ⟨[], by rw [hout, h.taken, h.sent]; rfl, fun _ => rfl⟩
      lost := fun _ q => unsent_of_not_relies (hrel q)
      inn := ⟨[], by rw [hinn, h.received, h.fed]; rfl, fun _ => rfl⟩
      lostIn := fun _ q => unfed_of_not_relies (hrel q)
      one := ⟨.reader, hrel _⟩
      ptr := fun q => by rw [h.pc q]; trivial
      fresh := h.fresh
      size := h.size }

/-- The two equations, read as faithfulness. -/
theorem Sound.faithful (hs : Sound s) : Faithful s := by
  obtain ⟨gone, hout, hgone⟩ := hs.out
  obtain ⟨gone', hinn, hgone'⟩ := hs.inn
  refine ⟨⟨_, (append_assoc ..).symm.trans hout⟩, ⟨_, (append_assoc ..).symm.trans hinn⟩,
    fun hlost hrel => ?_, fun hlost hrel => ?_⟩
  · rw [← hout, hgone hlost, both_nil fun q => unsent_of_not_relies (hrel q)]
    simp
  · rw [← hinn, hgone' hlost, both_nil fun q => unfed_of_not_relies (hrel q)]
    simp

end Sound

/-! ## Whole runs -/

variable {junk : Mem} {as : List Act} {s₀ s : State}

/-- **The stream is faithful while the directions keep apart.**  Along every run in which the
scratch is written only while the other coroutine does not rely on it, the socket gets the engine's
bytes and the engine gets the socket's, in order. -/
theorem faithful_of_apart (h₀ : Idle s₀)
    (h : Run (step junk) (fun s a => apart s a = true) s₀ as s) : Faithful s :=
  (h.invariant h₀.sound fun hs hok hstep => hs.step hok hstep).faithful

theorem idle_new : Idle {} := ⟨fun _ => rfl, rfl, rfl, rfl, rfl, Nat.one_pos, Nat.succ_pos _⟩

/-- A reader waits for input; a writer encrypts one record and its ciphertext is being sent; input
arrives, and then the send completes. -/
def overlap : List Act :=
  [.call .reader [], .ssl .wantRead [], .go, .go,
   .call .writer [1], .ssl .done [7], .go,
   .complete .reader (.received [9]), .complete .writer (.sent 1)]

/-- **Sent is not what was taken**: the input that arrived in the meantime goes out again. -/
theorem overlap_not_faithful : ∃ s, Run (step Mem.zero) (fun _ _ => True) {} overlap s ∧
    s.taken = [7] ∧ s.sent = [9] ∧ ¬ Faithful s := by
  obtain ⟨s, hs, htaken, hsent⟩ : ∃ s, Run (step Mem.zero) (fun _ _ => True) {} overlap s ∧
    s.taken = [7] ∧
      s.sent = [9] := Run.exists_of_mem (by decide +kernel)
  refine ⟨s, hs, htaken, hsent, fun hf => ?_⟩
  have hprefix := hf.sent_prefix
  rw [htaken, hsent] at hprefix
  exact absurd hprefix (by decide)

/-- The same, with the send completed before the input arrives. -/
def inTurn : List Act :=
  [.call .reader [], .ssl .wantRead [], .go, .go,
   .call .writer [1], .ssl .done [7], .go, .complete .writer (.sent 1),
   .complete .reader (.received [9]), .resume .reader true]

theorem faithful_of_apart_inTurn : ∃ s, Run (step Mem.zero) (fun s a => apart s a = true)
    {} inTurn s ∧
    s.sent = [7] ∧ s.fed = [9] ∧ Faithful s := by
  obtain ⟨s, hs, hsent, hfed⟩ : ∃ s, Run (step Mem.zero) (fun s a => apart s a = true) {} inTurn s ∧
    s.sent = [7] ∧
      s.fed = [9] := Run.exists_of_mem (by decide +kernel)
  exact ⟨s, hs, hsent, hfed, faithful_of_apart idle_new hs⟩

end Cornet.Tls
