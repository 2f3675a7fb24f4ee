import Cornet.Http.Client.Connection

/-!
# Http/Client/Gathering — a response body of unknown length

    prepare_body        append_body       append_body
    16 KiB or less  ──▸  × 2, × 2, … ──▸  max_body_bytes at most

The runs are appended as they come.  The capacity asked for is doubled until the run fits and capped
at `max_body_bytes`, which it never has to exceed: a run that would has been refused before.
-/

namespace Cornet.Http.Client.Connection

open List

open Http (BodyBuffer)

/-- The runs of a body go to `append_body`, one after the other, until one is refused. -/
def gather : Connection → List (List Byte) → Except ReadError Connection
  | c, [] => .ok c
  | c, run :: runs =>
    match c.appendBody run with
    | .ok b => (c.setBody b).gather runs
    | .error e => .error e

/-- **The doubling ends** with a capacity that fits. -/
theorem le_doubled {want : ℕ} : ∀ {fuel next : ℕ}, want ≤ next * 2 ^ fuel →
    want ≤ doubled want fuel next
  | 0, next, h => by simpa [doubled] using h
  | fuel + 1, next, h => by
      rw [doubled]
      split
      · exact le_doubled (by rwa [Nat.mul_assoc, ← Nat.pow_succ'])
      · omega

/-- A body that is being gathered: its buffer has a block, and what it may take is below 4 GiB. -/
structure Gathers (c : Connection) (max : ℕ) (body : List Byte) : Prop where
  ok : c.parser.io.body.Ok
  cap_pos : 0 < c.parser.io.body.cap
  view_eq : c.parser.io.body.view = body
  max_eq : c.opt.maxBodyBytes = max
  max_lt : max < 2 ^ 32

variable {c d : Connection} {max : ℕ} {body run : List Byte}

theorem Gathers.size_eq (h : c.Gathers max body) : c.parser.io.body.size = body.length := by
  rw [← h.view_eq, BodyBuffer.length_view]

/-- What the loop of `append_body` comes to is enough. -/
theorem Gathers.le_doubled (h : c.Gathers max body) (hle : body.length + run.length ≤ max) :
    body.length + run.length ≤ doubled (body.length + run.length) 64
      (if c.parser.io.body.cap = 0 then c.opt.aggregateThreshold
        else c.parser.io.body.cap * 2) := by
  have hcap := h.cap_pos
  have hlt := h.max_lt
  refine Connection.le_doubled ?_
  rw [if_neg hcap.ne']
  omega

/-- The buffer the run is copied into has room for it. -/
theorem Gathers.grown (h : c.Gathers max body) {want next : ℕ} (hle : want ≤ max)
    (hnext : want ≤ next) :
    ∃ b, (if c.parser.io.body.cap < want then c.parser.io.body.grow (min next max)
      else c.parser.io.body) = b ∧
      b.Ok ∧ 0 < b.cap ∧ b.view = body ∧ want ≤ b.cap := by
  refine ⟨_, rfl, ?_⟩
  split_ifs with hgrow
  · have hcap : want ≤ (c.parser.io.body.grow (min next max)).cap := (le_min hnext hle).trans
      (BodyBuffer.le_cap_grow ((Nat.min_le_right next max).trans_lt h.max_lt))
    exact ⟨h.ok.grow, h.cap_pos.trans (hgrow.trans_le hcap),
      by rw [BodyBuffer.view_grow, h.view_eq], hcap⟩
  · exact ⟨h.ok, h.cap_pos, h.view_eq, not_lt.mp hgrow⟩

/-- **One run.**  It is appended if the body stays within the limit, and refused as too large if
not. -/
theorem Gathers.append (h : c.Gathers max body) (run : List Byte) :
    (body.length + run.length ≤ max →
      ∃ b, c.appendBody run = .ok b ∧ (c.setBody b).Gathers max (body ++ run)) ∧
    (body.length ≤ max → max < body.length + run.length →
      c.appendBody run = .error .bodyTooLarge) := by
  rw [appendBody, h.size_eq, h.max_eq]
  dsimp only
  refine ⟨fun hle => ?_, fun hle hmore => ?_⟩
  · by_cases hrun : run = []
    · rw [if_pos hrun, hrun, append_nil]
      exact ⟨_, rfl, h⟩
    · obtain ⟨b, hb, hok, hpos, hview, hfits⟩ := h.grown hle (h.le_doubled hle)
      have hsize : b.size = body.length := by rw [← hview, BodyBuffer.length_view]
      obtain ⟨b', happend, hok', hcap', hview'⟩ := hok.append_le (l := run) (by rwa [hsize])
      rw [if_neg hrun, if_neg (not_lt.mpr hle), hb, happend]
      exact ⟨b', rfl, hok', hcap'.symm ▸ hpos, hview ▸ hview', h.max_eq, h.max_lt⟩
  · have hrun : run ≠ [] := by
      rintro rfl
      simp only [length_nil] at hmore
      omega
    rw [if_neg hrun, if_pos hmore]

/-- **The runs of a body**: gathered up to the first that exceeds the limit. -/
theorem Gathers.gather : ∀ {c : Connection} {body : List Byte} (runs : List (List Byte)),
    c.Gathers max body →
    body.length ≤ max →
    (body.length + runs.flatten.length ≤ max →
      ∃ d, c.gather runs = .ok d ∧ d.Gathers max (body ++ runs.flatten)) ∧
    (max < body.length + runs.flatten.length → c.gather runs = .error .bodyTooLarge)
  | c, body, [], h, hle => by
      refine ⟨fun _ => ⟨c, rfl, by simpa using h⟩, fun hlt => ?_⟩
      simp only [flatten_nil, length_nil] at hlt
      omega
  | c, body, run :: runs, h, hle => by
      rw [Connection.gather, flatten_cons, length_append]
      by_cases hfits : body.length + run.length ≤ max
      · obtain ⟨b, happend, hb⟩ := (h.append run).1 hfits
        have ih := Gathers.gather runs hb (by rwa [length_append])
        rw [length_append, Nat.add_assoc] at ih
        rw [happend, ← append_assoc]
        exact ih
      · rw [(h.append run).2 hle (not_le.mp hfits)]
        exact ⟨fun hall => by omega, fun _ => rfl⟩

/-- `prepare_body` for a body of unknown length. -/
theorem gathers_prepareBody (hopen : c.bodyComplete = false)
    (hlength : c.parser.hasContentLength = false)
    (hmax : c.opt.maxBodyBytes < 2 ^ 32) :
    ∃ d, c.prepareBody false = .ok d ∧ d.Gathers c.opt.maxBodyBytes [] := by
  generalize hn : (if min c.opt.aggregateThreshold (16 <<< 10) = 0 then 4096
    else min c.opt.aggregateThreshold (16 <<< 10)) = n
  have hpos : 0 < n ∧ n < 2 ^ 32 := by
    have : 16 <<< 10 < 2 ^ 32 := by decide
    rw [← hn]
    split_ifs <;> omega
  have hreserve : BodyBuffer.reserveExact n = some { cap := n } := by
    rw [BodyBuffer.reserveExact, if_neg hpos.1.ne', if_neg (by omega)]
  rw [prepareBody]
  dsimp only
  rw [if_neg (by simp [hopen]), if_neg (by rw [← Bool.not_eq_false, not_not]; exact hlength), hn,
    hreserve]
  exact ⟨_, rfl, ⟨Nat.zero_le _, hpos.2⟩, hpos.1, rfl, rfl, hmax⟩

/-- **A body of unknown length.**  Gathering its runs yields their concatenation if that is within
`max_body_bytes`; otherwise the first run that exceeds it is refused as too large, and the runs
before it have been appended.  For every run that is taken the doubling of the capacity ends with
enough. -/
theorem gather_concat {d : Connection} (hopen : c.bodyComplete = false)
    (hlength : c.parser.hasContentLength = false) (hmax : c.opt.maxBodyBytes < 2 ^ 32)
    (hprepare : c.prepareBody false = .ok d) (runs : List (List Byte)) :
    (runs.flatten.length ≤ c.opt.maxBodyBytes →
      ∃ e, d.gather runs = .ok e ∧ e.parser.io.body.view = runs.flatten) ∧
    (c.opt.maxBodyBytes < runs.flatten.length → d.gather runs = .error .bodyTooLarge) ∧
    ∀ pre run post, runs = pre ++ run :: post → pre.flatten.length ≤ c.opt.maxBodyBytes →
      ∃ e, d.gather pre = .ok e ∧ e.parser.io.body.view = pre.flatten ∧
        (c.opt.maxBodyBytes < pre.flatten.length + run.length →
          e.appendBody run = .error .bodyTooLarge) ∧
        (pre.flatten.length + run.length ≤ c.opt.maxBodyBytes → e.parser.io.body.size + run.length ≤
          doubled (e.parser.io.body.size + run.length) 64 (if e.parser.io.body.cap = 0 then
            e.opt.aggregateThreshold else e.parser.io.body.cap * 2)) := by
  obtain ⟨d', hprepare', hd⟩ := gathers_prepareBody hopen hlength hmax
  obtain rfl := Except.ok.inj (hprepare.symm.trans hprepare')
  have hall (runs : List (List Byte)) := Gathers.gather runs hd (Nat.zero_le _)
  simp only [length_nil, Nat.zero_add, nil_append] at hall
  refine ⟨fun hle => ?_, (hall runs).2, fun pre run post _ hpre => ?_⟩
  · obtain ⟨e, hgather, he⟩ := (hall runs).1 hle
    exact ⟨e, hgather, he.view_eq⟩
  · obtain ⟨e, hgather, he⟩ := (hall pre).1 hpre
    refine ⟨e, hgather, he.view_eq, (he.append run).2 hpre, fun hle => ?_⟩
    rw [he.size_eq]
    exact he.le_doubled hle

theorem gather_concat_limit : ∃ d, (adopt { maxBodyBytes := 3 } {} []).prepareBody false = .ok d ∧
    d.gather [[97, 98], [99, 100]] = .error .bodyTooLarge := by
  obtain ⟨d, hd, -⟩ := gathers_prepareBody (c := adopt { maxBodyBytes := 3 } {} []) rfl (by decide)
    (by decide)
  exact ⟨d, hd, (gather_concat rfl (by decide) (by decide) hd _).2.1 (by decide)⟩

end Cornet.Http.Client.Connection
