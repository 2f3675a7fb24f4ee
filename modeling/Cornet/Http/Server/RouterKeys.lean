import Cornet.Http.Server.RouterMatch

/-!
# Http/Server/RouterKeys — paths with the same segments

    "/a//b", "/a/b/", "a/b"   ──▸   key "0/a/b",   one match, but "*" captures the text as it was sent

The key built on the stack is the key of the table wherever it fits.  A match looks at the segments
alone, up to what a wildcard at the end of a branch takes: the rest of the path, with its slashes.
-/

namespace Cornet.Http.Server

variable {α : Type} {segs segs' : List Segment} {q : List Step}

theorem covers_congr : ∀ {segs segs' : List Segment} {q : List Step},
    segs.map Segment.text = segs'.map Segment.text → Covers q segs → Covers q segs'
  | [], [], _, _, hq => hq
  | seg :: segs, seg' :: segs', q, h, hq => by
      obtain ⟨htext, hrest⟩ := List.cons.inj h
      rcases covers_cons_iff.mp hq with ⟨q', rfl, hq'⟩ | ⟨q', rfl, hq'⟩ | rfl
      · exact ⟨htext, covers_congr hrest hq'⟩
      · exact covers_congr (q := q') hrest hq'
      · trivial

/-- The first branch depends on the segments alone. -/
theorem First.eq_of_texts {n : Node α} {q' : List Step}
    (h : segs.map Segment.text = segs'.map Segment.text)
    (hq : First n segs q) (hq' : First n segs' q') : q = q' := by
  have hcovers := covers_congr h.symm hq'.covers
  exact Precedes.antisymm hq.covers hcovers (hq.least q' hcovers hq'.exists_)
    (hq'.least q (covers_congr h hq.covers) hq.exists_)

/-- Two lists are the same, or they differ in their last entry and `q` ends in a wildcard. -/
def SameUpToWild {β : Type} (q : List Step) (same : β → β → Prop) (l l' : List β) : Prop :=
  l = l' ∨ ∃ q₀ init v v', q = q₀ ++ [.wild] ∧ l = init ++ [v] ∧ l' = init ++ [v'] ∧ same v v'

/-- **What a branch captures** is the same up to a wildcard at its end. -/
theorem captures_congr : ∀ {segs segs' : List Segment} {q : List Step},
    segs.map Segment.text = segs'.map Segment.text → Covers q segs →
    SameUpToWild q (fun _ _ => True) (captures q segs) (captures q segs')
  | [], [], _, _, _ => .inl rfl
  | seg :: segs, seg' :: segs', q, h, hq => by
      obtain ⟨htext, hrest⟩ := List.cons.inj h
      rcases covers_cons_iff.mp hq with ⟨q', rfl, hq'⟩ | ⟨q', rfl, hq'⟩ | rfl
      · refine (captures_congr hrest hq').imp id ?_
        rintro ⟨q₀, init, v, v', rfl, hv, hv', -⟩
        exact ⟨_ :: q₀, init, v, v', rfl, hv, hv', trivial⟩
      · rcases captures_congr hrest hq' with heq | ⟨q₀, init, v, v', rfl, hv, hv', -⟩
        · exact .inl (congrArg₂ List.cons htext heq)
        · exact .inr ⟨.param :: q₀, seg.text :: init, v, v', rfl, congrArg _ hv,
            congrArg₂ _ htext.symm hv', trivial⟩
      · exact .inr ⟨[], [], seg.rest, seg'.rest, rfl, rfl, rfl, trivial⟩

theorem zip_concat {β γ : Type} (v v' : γ) : ∀ (names : List β) (init : List γ),
    names.zip (init ++ [v]) = names.zip (init ++ [v']) ∨
      ∃ l n, names.zip (init ++ [v]) = l ++ [(n, v)] ∧ names.zip (init ++ [v']) = l ++ [(n, v')]
  | [], _ => .inl rfl
  | n :: _, [] => .inr ⟨[], n, by simp, by simp⟩
  | n :: names, x :: init => by
      refine (zip_concat v v' names init).imp (congrArg ((n, x) :: ·)) ?_
      rintro ⟨l, n', hv, hv'⟩
      exact ⟨(n, x) :: l, n', congrArg _ hv, congrArg _ hv'⟩

/-- The parameters are the first of the captured texts, by name. -/
theorem SameUpToWild.bind {l l' : List (List Byte)} (h : SameUpToWild q (fun _ _ => True) l l')
    (k : ℕ)
    (names : List (List Byte)) :
    SameUpToWild q (fun v v' => v.1 = v'.1) (names.zip (l.take k)) (names.zip (l'.take k)) := by
  obtain rfl | ⟨q₀, init, v, v', hq, rfl, rfl, -⟩ := h
  · exact .inl rfl
  · by_cases hk : k ≤ init.length
    · exact .inl (by rw [List.take_append_of_le_length hk, List.take_append_of_le_length hk])
    · have htake (w : List Byte) : (init ++ [w]).take k = init ++ [w] :=
        List.take_of_length_le (by rw [List.length_append, List.length_singleton]; omega)
      rw [htake, htake]
      refine (zip_concat v v' names init).imp id ?_
      rintro ⟨l, n, hv, hv'⟩
      exact ⟨q₀, l, (n, v), (n, v'), hq, hv, hv', rfl⟩

/-- Two matches are the same, up to the text a wildcard at the end of the branch `q` took. -/
structure Match.SameUpTo (q : List Step) (a b : Match α) : Prop where
  route : a.route = b.route
  methodMismatch : a.methodMismatch = b.methodMismatch
  params : SameUpToWild q (fun v v' => v.1 = v'.1) a.params b.params

theorem Match.SameUpTo.refl (q : List Step) (a : Match α) : a.SameUpTo q a := ⟨rfl, rfl, .inl rfl⟩

theorem sameUpTo_reply (n : Node α) (m : Method) {l l' : List (List Byte)}
    (h : SameUpToWild q (fun _ _ => True) l l') (k : ℕ) :
    (n.reply m (l.take k)).SameUpTo q (n.reply m (l'.take k)) := by
  rw [Node.reply, Node.reply]
  split
  · exact .refl q _
  · exact ⟨rfl, rfl, h.bind k _⟩

/-- **Keys and matches.**  The key on the stack is that of the table and is given up only if it does
not fit; paths with the same segments between their slashes have one key, and one match up to the
text a wildcard takes at the end of the branch that was found. -/
theorem keys_and_matches (r : Router α) (m : Method) :
    (∀ path cap key, normaliseKeyInto m path cap = some key → key = exactKey m (normalise path)) ∧
      (∀ path cap, normaliseKeyInto m path cap = none ↔
        cap < (exactKey m (normalise path)).length) ∧
      ∀ p p' : List Byte, (p.splitOn 47).filter (· ≠ []) = (p'.splitOn 47).filter (· ≠ []) →
        exactKey m (normalise p) = exactKey m (normalise p') ∧
        (∀ cap, normaliseKeyInto m p cap = normaliseKeyInto m p' cap) ∧
        ∃ q, (r.matchPath m p).SameUpTo q (r.matchPath m p') ∧
          (q ≠ [] → First r.root (splitPath p) q) := by
  refine ⟨fun path cap key h => ?_, fun path cap => ?_, fun p p' h => ?_⟩
  · rw [normaliseKeyInto_eq] at h
    split_ifs at h
    exact (Option.some.inj h).symm
  · rw [normaliseKeyInto_eq]
    split_ifs with hcap <;> simp [hcap]
  · rw [← segments_eq_splitOn, ← segments_eq_splitOn] at h
    have hkey : exactKey m (normalise p) = exactKey m (normalise p') := exactKey_inj.mpr ⟨rfl, h⟩
    refine ⟨hkey, fun cap => by rw [normaliseKeyInto_eq, normaliseKeyInto_eq, hkey], ?_⟩
    have hexact : r.findExact m p = r.findExact m p' := by
      rw [Router.findExact, Router.findExact, getD_normaliseKeyInto, getD_normaliseKeyInto, hkey]
    rw [Router.matchPath, Router.matchPath, hexact]
    cases r.findExact m p' with
    | some route => exact ⟨[], .refl _ _, absurd rfl⟩
    | none =>
      dsimp only
      rw [backtrack_descend, backtrack_descend, Option.join_some, Option.join_some]
      rcases search_spec (splitPath p) r.root [] with ⟨hnone, hno⟩ | ⟨q, n, hfirst, hn, hsome⟩ <;>
        rcases search_spec (splitPath p') r.root [] with ⟨hnone', hno'⟩ |
          ⟨q', n', hfirst', hn', hsome'⟩
      · rw [hnone, hnone']
        exact ⟨[], .refl _ _, absurd rfl⟩
      · exact absurd (hno q' (covers_congr h.symm hfirst'.covers)) (by rw [hn']; rintro ⟨⟩)
      · exact absurd (hno' q (covers_congr h hfirst.covers)) (by rw [hn]; rintro ⟨⟩)
      · obtain rfl := hfirst.eq_of_texts h hfirst'
        obtain rfl := Option.some.inj (hn.symm.trans hn')
        rw [hsome, hsome', foldl_capture (Nat.zero_le _), foldl_capture (Nat.zero_le _)]
        exact ⟨q, sameUpTo_reply n m (captures_congr h hfirst.covers) kMax, fun _ => hfirst⟩

end Cornet.Http.Server
