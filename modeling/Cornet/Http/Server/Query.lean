import Cornet.Http.UrlParts

/-!
# Http/Server/Query — the pairs of a query (`query_t` in `src/http/server/message.cc`)

    a=1&b&=c&            pos ─▸ next ─▸ ⋯ ─▸ size, taken for size + 1

The iterator is a position, and one past the text is the end.  What it yields are the pieces between
the `&`, each cut at its first `=`.
-/

namespace Cornet.Http.Server.Query

open List

/-- `entry_t`. -/
structure Entry where
  key : List Byte := []
  value : List Byte := []
  deriving DecidableEq, Repr

/-- `iterator`; its text is that of the query. -/
structure Iterator where
  pos : ℕ
  next : ℕ
  cur : Entry

/-- A pair, cut at its first `=`. -/
def entry (pair : List Byte) : Entry :=
  match splitFirst 0x3d pair with
  | none => ⟨pair, []⟩
  | some (key, value) => ⟨key, value⟩

section Iteration

variable (raw : List Byte)

/-- `advance`, with which the constructor and `operator++` end. -/
def advance (pos : ℕ) : Iterator :=
  if raw.length < pos then ⟨pos, pos, {}⟩
  else if pos = raw.length then ⟨raw.length + 1, raw.length + 1, {}⟩
  else
    match splitFirst 0x26 (raw.drop pos) with
    | none => ⟨pos, raw.length + 1, entry (raw.drop pos)⟩
    | some (pair, _) => ⟨pos, pos + pair.length + 1, entry pair⟩

/-- `begin()`. -/
def start : Iterator := advance raw 0

/-- `end()`. -/
def finish : Iterator := advance raw (raw.length + 1)

/-- The entries of a `for` loop that stands here, in at most so many turns. -/
def collect : ℕ → Iterator → Option (List Entry)
  | 0, _ => none
  | n + 1, it =>
    if it.pos = (finish raw).pos then some [] else (collect n (advance raw it.next)).map
      (it.cur :: ·)

/-- The loop of `get`. -/
def get (key : List Byte) : ℕ → Iterator → Option (List Byte)
  | 0, _ => none
  | n + 1, it =>
    if it.pos = (finish raw).pos then some []
    else if it.cur.key = key then some it.cur.value else get key n (advance raw it.next)

end Iteration

/-! ## Pieces -/

/-- The pieces between the `&`, without an empty one at the end. -/
def pieces (l : List Byte) : List (List Byte) :=
  if (l.splitOn 0x26).getLast? = some [] then (l.splitOn 0x26).dropLast else l.splitOn 0x26

variable {raw x y l : List Byte}

theorem pieces_of_not_mem (hl : l ≠ []) (h : (0x26 : Byte) ∉ l) : pieces l = [l] := by
  rw [pieces, splitOn_eq_singleton h, if_neg]
  exact fun hlast => hl (Option.some.inj hlast)

theorem pieces_append (h : (0x26 : Byte) ∉ x) : pieces (x ++ 0x26 :: y) = x :: pieces y := by
  have hsplit : (x ++ 0x26 :: y).splitOn 0x26 = x :: y.splitOn 0x26 :=
    splitOnP_append_cons_of_forall_mem (fun b hb => beq_false_of_ne (ne_of_mem_of_not_mem hb h)) _
      (beq_self_eq_true _) y
  obtain ⟨p, ps, hps⟩ := exists_cons_of_ne_nil (splitOn_ne_nil 0x26 y)
  rw [pieces, pieces, hsplit, hps, getLast?_cons_cons, dropLast_cons_cons]
  split_ifs <;> rfl

theorem entry_eq (pair : List Byte) : entry
    pair = ⟨pair.takeWhile (· != 0x3d), (pair.dropWhile (· != 0x3d)).tail⟩ := by
  rw [entry, splitFirst, span_eq_takeWhile_dropWhile]
  cases h : pair.dropWhile (· != 0x3d) with
  | nil =>
    have hall := takeWhile_append_dropWhile (p := (· != (0x3d : Byte))) (l := pair)
    rw [h, append_nil] at hall
    simp only [hall, tail_nil]
  | cons b l => rfl

/-! ## The loops -/

theorem finish_pos : (finish raw).pos = raw.length + 1 :=
  by rw [finish, advance, if_pos (Nat.lt_succ_self _)]

/-- **From a position on**, the loop yields the pieces of the rest. -/
theorem collect_advance : ∀ n pos, pos ≤ raw.length → raw.length - pos < n →
    collect raw n (advance raw pos) = some ((pieces (raw.drop pos)).map entry)
  | 0, _, _, hn => absurd hn (Nat.not_lt_zero _)
  | n + 1, pos, hpos, hn => by
      rw [collect, finish_pos, advance, if_neg (not_lt.mpr hpos)]
      by_cases hend : pos = raw.length
      · rw [if_pos hend, if_pos rfl, hend, drop_length]
        rfl
      · rw [if_neg hend]
        have hne : pos ≠ raw.length + 1 := by omega
        cases hcut : splitFirst 0x26 (raw.drop pos) with
        | none =>
          obtain ⟨m, rfl⟩ : ∃ m, n = m + 1 := ⟨n - 1, by omega⟩
          have hrest : raw.drop pos ≠ [] := by rw [ne_eq, drop_eq_nil_iff]; omega
          have hfinish : collect raw (m + 1) (advance raw (raw.length + 1)) = some [] := if_pos rfl
          dsimp only
          rw [if_neg hne, hfinish, pieces_of_not_mem hrest (splitFirst_eq_none.mp hcut)]
          rfl
        | some cut =>
          obtain ⟨hdrop, hx⟩ := splitFirst_eq_some.mp hcut
          have hlen := congrArg List.length hdrop
          rw [length_drop, length_append, length_cons] at hlen
          have hrest : raw.drop (pos + cut.1.length + 1) = cut.2 := by
            rw [Nat.add_assoc, ← drop_drop, hdrop, drop_length_add_append]
            rfl
          dsimp only
          rw [if_neg hne, collect_advance n _ (by omega) (by omega), hrest, hdrop, pieces_append hx]
          rfl

/-- `get` looks at what the loop yields. -/
theorem get_of_collect (key : List Byte) : ∀ n it es, collect raw n it = some es →
    get raw key n it = some (((es.find? (·.key = key)).map Entry.value).getD [])
  | 0, _, _, h => by cases h
  | n + 1, it, es, h => by
      rw [collect] at h
      rw [get]
      split_ifs at h ⊢ with hend hkey
      · obtain rfl := Option.some.inj h
        rfl
      all_goals
        obtain ⟨es', hes, rfl⟩ := Option.map_eq_some_iff.mp h
      · rw [find?_cons_of_pos (by simpa using hkey)]
        rfl
      · rw [find?_cons_of_neg (by simpa using hkey)]
        exact get_of_collect key n _ es' hes

/-- **A query is its pieces.**  The loop from `begin()` to `end()` ends and yields the pieces in
order, each cut at its first `=`; `get` gives the first of them with the key. -/
theorem query_yields_pieces (raw : List Byte) (n : ℕ) :
    ∃ es, es = (pieces raw).map (fun p =>
      ⟨p.takeWhile (· != 0x3d), (p.dropWhile (· != 0x3d)).tail⟩) ∧
      collect raw (raw.length + 1 + n) (start raw) = some es ∧
      ∀ key, get raw key (raw.length + 1 + n) (start raw) =
        some (((es.find? (·.key = key)).map Entry.value).getD []) := by
  have hall : collect raw (raw.length + 1 + n) (start raw) = some ((pieces raw).map entry) :=
    collect_advance _ 0 (Nat.zero_le _) (by omega)
  refine ⟨(pieces raw).map entry, map_congr_left fun p _ => entry_eq p, hall, fun key => ?_⟩
  exact get_of_collect key _ _ _ hall

end Cornet.Http.Server.Query
