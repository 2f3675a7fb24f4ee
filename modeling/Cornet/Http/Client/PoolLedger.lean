import Cornet.Http.Client.PoolMoves

/-!
# Http/Client/PoolLedger — the connections of the pool

    opened  ~  closed ++ (idle ++ busy of every bucket)          total  =  ∑ idle + busy

`Ledger` states the books: the caps of each bucket, the counter `total_`, and that the connections
ever opened are those closed and those in the lists of the buckets, each once.  Nearly every move
only moves connections about inside one bucket and closes some of them; `Ledger.shift` is that case,
and a permutation is all it asks for.  A bucket that starts to open a connection has no idle one
left, which is why `idle + busy + opening` stays within the cap although the test leaves `idle` out.
-/

namespace Cornet.Http.Client

open List Family

open scoped List

variable {κ : Type*} [DecidableEq κ]

/-- How often a bucket lists a connection. -/
def Bucket.has (c : Conn κ) (b : Bucket κ) : ℕ := b.idle.count c + b.busy.count c

namespace Pool

variable {opt : Options} {s s' : Pool κ} {a : Event κ} {k : κ} {c : Conn κ} {b : Bucket κ}

/-- The books: caps of each bucket, the global counter, and where every connection is. -/
structure Ledger (opt : Options) (s : Pool κ) : Prop where
  host : ∀ k, (s.buckets k).size + (s.buckets k).opening ≤ opt.maxConnsPerHost
  idle : ∀ k, (s.buckets k).idle.length ≤ opt.maxIdlePerHost
  total : s.total = s.buckets.sum Bucket.size
  place : ∀ c, s.opened.count c = s.closed.count c + s.buckets.sum (Bucket.has c)
  home : ∀ k c, 0 < (s.buckets k).has c → c.key = k
  nodup : s.opened.Nodup
  ids : ∀ c ∈ s.opened, c.id < s.opened.length

/-- A write of one bucket, with the counter and the history that go with it. -/
theorem Ledger.write (h : Ledger opt s) (hb : s'.buckets = s.buckets.set k b)
    (hhost : b.size + b.opening ≤ opt.maxConnsPerHost) (hidle : b.idle.length ≤ opt.maxIdlePerHost)
    (htotal : s'.total + (s.buckets k).size = s.total + b.size)
    (hplace : ∀ c, s'.opened.count c + s.closed.count c + (s.buckets k).has c =
      s.opened.count c + s'.closed.count c + b.has c)
    (hhome : ∀ c, 0 < b.has c → c.key = k) (hnodup : s'.opened.Nodup)
    (hids : ∀ c ∈ s'.opened, c.id < s'.opened.length) : Ledger opt s' where
  host := by
    rw [hb]
    exact forall_set (fun _ (b : Bucket κ) => b.size + b.opening ≤ opt.maxConnsPerHost) h.host hhost
  idle := by
    rw [hb]
    exact forall_set (fun _ (b : Bucket κ) => b.idle.length ≤ opt.maxIdlePerHost) h.idle hidle
  total := by
    have hsum := sum_set (f := Bucket.size) rfl s.buckets k b
    have := h.total
    rw [hb]
    omega
  place c := by
    have hsum := sum_set (f := Bucket.has c) rfl s.buckets k b
    have := h.place c
    have := hplace c
    rw [hb]
    omega
  home := by
    rw [hb]
    exact forall_set (fun k (b : Bucket κ) => ∀ c, 0 < b.has c → c.key = k) h.home hhome
  nodup := hnodup
  ids := hids

/-- A connection is listed at most once. -/
theorem Ledger.has_le_one (h : Ledger opt s) (k : κ) (c : Conn κ) : (s.buckets k).has c ≤ 1 := by
  have hle := le_sum (f := Bucket.has c) rfl s.buckets k
  have hone := nodup_iff_count_le_one.mp h.nodup c
  have := h.place c
  omega

theorem Ledger.size_le_total (h : Ledger opt s) (k : κ) : (s.buckets k).size ≤ s.total := by
  rw [h.total]
  exact le_sum rfl s.buckets k

theorem Ledger.total_pos (h : Ledger opt s) (hc : c ∈ (s.buckets k).busy) : 0 < s.total :=
  (length_pos_of_mem hc).trans_le ((Nat.le_add_left _ _).trans (h.size_le_total k))

theorem Ledger.idle_not_busy (h : Ledger opt s) (hc : c ∈ (s.buckets k).idle) : c ∉
    (s.buckets k).busy := by
  intro hbusy
  have hi := count_pos_iff.mpr hc
  have hb := count_pos_iff.mpr hbusy
  have := h.has_le_one k c
  rw [Bucket.has] at this
  omega

theorem Ledger.not_mem_erase (h : Ledger opt s) : c ∉ (s.buckets k).busy.erase c := by
  have hone := h.has_le_one k c
  rw [Bucket.has] at hone
  rw [← count_eq_zero, count_erase_self]
  omega

/-- What is in use was opened. -/
theorem Ledger.opened_of_busy (h : Ledger opt s) (hc : c ∈ (s.buckets k).busy) : c ∈ s.opened := by
  have hb := count_pos_iff.mpr hc
  have hle := le_sum (f := Bucket.has c) rfl s.buckets k
  have hplace := h.place c
  refine count_pos_iff.mp ?_
  rw [Bucket.has] at hle
  omega

/-- The next connection is a new one. -/
theorem Ledger.fresh (h : Ledger opt s) (hc : c.id = s.opened.length) : c ∉ s.opened := by
  intro hmem
  have := h.ids c hmem
  omega

theorem Ledger.init : Ledger opt ({} : Pool κ) where
  host _ := Nat.zero_le _
  idle _ := Nat.zero_le _
  total := rfl
  place _ := rfl
  home _ _ h := absurd h (lt_irrefl 0)
  nodup := nodup_nil
  ids _ h := absurd h not_mem_nil

theorem busy_perm (hc : c ∈ (s.buckets k).busy) :
    (s.buckets k).idle ++ (s.buckets k).busy ~
      [c] ++ ((s.buckets k).idle ++ (s.buckets k).busy.erase c) :=
  ((perm_cons_erase hc).append_left _).trans perm_middle

/-- The connections of one bucket change places, and `gone` are closed. -/
theorem Ledger.shift {gone : List (Conn κ)} (h : Ledger opt s) (hb : s'.buckets = s.buckets.set k b)
    (hp : (s.buckets k).idle ++ (s.buckets k).busy ~ gone ++ (b.idle ++ b.busy))
    (hhost : b.size + b.opening ≤ opt.maxConnsPerHost) (hidle : b.idle.length ≤ opt.maxIdlePerHost)
    (htotal : s'.total = s.total - gone.length) (hclosed : s'.closed ~ gone ++ s.closed)
    (hopened : s'.opened = s.opened) : Ledger opt s' := by
  have hsize : (s.buckets k).size = gone.length + b.size := by
    simpa [Bucket.size] using hp.length_eq
  have hhas : ∀ c, (s.buckets k).has c = gone.count c + b.has c := by
    intro c
    simpa [Bucket.has] using hp.count_eq c
  have hle := h.size_le_total k
  refine h.write hb hhost hidle ?_ ?_ ?_ (hopened ▸ h.nodup) (hopened ▸ h.ids)
  · omega
  · intro c
    have hcount := hclosed.count_eq c
    rw [count_append] at hcount
    rw [hopened, hhas c, hcount]
    omega
  · intro c hc
    exact h.home k c (by rw [hhas c]; omega)

/-- A bucket that opens nothing more and keeps no more connections stays within its cap. -/
theorem Ledger.host_of_perm {gone : List (Conn κ)} (h : Ledger opt s)
    (hp : (s.buckets k).idle ++ (s.buckets k).busy ~ gone ++ (b.idle ++ b.busy))
    (ho : b.opening ≤ (s.buckets k).opening) : b.size + b.opening ≤ opt.maxConnsPerHost := by
  have hhost := h.host k
  have hsize : (s.buckets k).size = gone.length + b.size := by
    simpa [Bucket.size] using hp.length_eq
  omega

/-- **The books balance** after every move. -/
theorem Ledger.move (h : Ledger opt s)
    (hopen : ∀ t k, (s.task t).opens = some k → 0 < (s.buckets k).opening)
    (hm : Move opt s a s') : Ledger opt s' := by
  cases hm with
  | @reuse a t k T c stale rest he hidle =>
    have hp : (s.buckets k).idle ++ (s.buckets k).busy ~
        stale ++ (rest ++ ((s.buckets k).busy ++ [c])) := by
      rw [hidle, append_assoc, ← append_assoc rest]
      exact (perm_append_singleton c _).symm.append_left stale
    refine h.shift rfl hp (h.host_of_perm hp le_rfl) ?_ rfl ((reverse_perm stale).append_right _)
      rfl
    have hle := h.idle k
    rw [hidle, length_append, length_cons] at hle
    change rest.length ≤ _
    omega
  | @opening a t k T he hhost htotal =>
    refine h.shift rfl (List.Perm.refl _) ?_ (Nat.zero_le _) rfl
      ((reverse_perm (s.buckets k).idle).append_right _) rfl
    simp only [Bucket.size, length_nil]
    omega
  | @park a t k T he hfull =>
    have hp : (s.buckets k).idle ++ (s.buckets k).busy ~
        (s.buckets k).idle ++ ([] ++ (s.buckets k).busy) := List.Perm.refl _
    exact h.shift rfl hp (h.host_of_perm hp le_rfl) (Nat.zero_le _) rfl
      ((reverse_perm (s.buckets k).idle).append_right _) rfl
  | resolve | stray | fail | receive | tick =>
    exact ⟨h.host, h.idle, h.total, h.place, h.home, h.nodup, h.ids⟩
  | @drop a t k x ha ht hx =>
    have hp : (s.buckets k).idle ++ (s.buckets k).busy ~
        [] ++ ((s.buckets k).idle ++ (s.buckets k).busy) := List.Perm.refl _
    exact h.shift rfl hp (h.host_of_perm hp (Nat.sub_le _ _)) (h.idle k) rfl (List.Perm.refl _) rfl
  | @adopt t k c ht hc =>
    have hguard := hopen t k (congrArg Acquire.opens ht)
    have hhost := h.host k
    refine h.write rfl ?_ (h.idle k) ?_ ?_ ?_ ?_ ?_
    · simp only [Bucket.size, length_append, length_singleton] at hhost ⊢
      omega
    · simp only [Bucket.size, length_append, length_singleton]
      omega
    · intro d
      simp only [Bucket.has, count_append, count_cons, count_nil]
      omega
    · intro d hd
      simp only [Bucket.has, count_append, count_cons, count_nil] at hd
      by_cases hdc : c = d
      · rw [← hdc, hc]
      · refine h.home k d ?_
        rw [if_neg (by simpa using hdc)] at hd
        rw [Bucket.has]
        omega
    · exact nodup_cons.mpr ⟨h.fresh (by rw [hc]), h.nodup⟩
    · intro d hd
      rcases mem_cons.mp hd with rfl | hd
      · rw [hc]
        exact Nat.lt_succ_self _
      · exact (h.ids d hd).trans (Nat.lt_succ_self _)
  | @close t c r _ _ ht hc hw | @pass t c r _ _ w ws ht hc hw =>
    have hp := busy_perm hc
    exact h.shift rfl hp (h.host_of_perm hp le_rfl) (h.idle c.key) rfl (List.Perm.refl _) rfl
  | @grant t c r _ _ w ws ht hc hw =>
    have hp : (s.buckets c.key).idle ++ (s.buckets c.key).busy ~
        [] ++ ((s.buckets c.key).idle ++ ((s.buckets c.key).busy.erase c ++ [c])) :=
      ((perm_cons_erase hc).trans (perm_append_singleton c _).symm).append_left _
    exact h.shift rfl hp (h.host_of_perm hp le_rfl) (h.idle c.key) rfl (List.Perm.refl _) rfl
  | @shelve t c r _ _ ht hc hw hroom =>
    have hp : (s.buckets c.key).idle ++ (s.buckets c.key).busy ~
        [] ++ ((c :: (s.buckets c.key).idle) ++ (s.buckets c.key).busy.erase c) := busy_perm hc
    exact h.shift rfl hp (h.host_of_perm hp le_rfl) hroom rfl (List.Perm.refl _) rfl
  | @evict c hc =>
    have hp : (s.buckets c.key).idle ++ (s.buckets c.key).busy ~
        [c] ++ ((s.buckets c.key).idle.erase c ++ (s.buckets c.key).busy) :=
      (perm_cons_erase hc).append_right _
    refine h.shift rfl hp (h.host_of_perm hp le_rfl) ?_ rfl (List.Perm.refl _) rfl
    exact (length_erase_le).trans (h.idle c.key)
  | @expire t d k v ht hd | @leave t k v ht =>
    have hp : (s.buckets k).idle ++ (s.buckets k).busy ~
        [] ++ ((s.buckets k).idle ++ (s.buckets k).busy) := List.Perm.refl _
    exact h.shift rfl hp (h.host_of_perm hp le_rfl) (h.idle k) rfl (List.Perm.refl _) rfl

end Pool

end Cornet.Http.Client
