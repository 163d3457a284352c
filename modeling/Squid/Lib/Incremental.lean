import Mathlib.Data.List.Infix

/-!
# Decoding a stream that arrives in pieces

An incremental decoder is called on the bytes received so far.  It reads elements off the
front of its buffer, keeps a checkpoint after the last complete one, and on the next call goes
on from there with more bytes.  Two notions make that precise.

* `ReadsAhead buf stop r w k cont`   the reader `r` of a word `w` that needs `k` more bytes to
  see that `w` is complete: on a prefix of `w ++ cont` of at least `w.length + k` bytes it
  takes `w` off the front, and on every shorter one it stops with `stop`;
* `ReadsAhead.bind`   two readers in sequence read the two words, when the lookahead of the
  first lies within what the second reads and its lookahead; `ReadsAhead.bind_covered`, when
  the second lies within the first one's lookahead; `ReadsAheadFrom`, a reader that is only
  run after one that needed some lookahead;
* `feed`, `feed_spec`   a decoder called on the pieces of a stream one after another: an
  invariant over the number of bytes fed so far, kept by every call, gives the outcome of each
  call and the state after the last, whatever the pieces.
-/

namespace Incremental

variable {σ α ε : Type}

section Reads
variable (buf : σ → List α) (stop : ε)

/-- `r` reads `w` with `k` bytes of lookahead off every prefix of `w ++ cont`; `buf s` is the
buffer of the state `s` it runs on. -/
def ReadsAhead (r : σ → Except ε σ) (w : List α) (k : Nat) (cont : List α) : Prop :=
  ∀ s m, m ≤ (w ++ cont).length → buf s = (w ++ cont).take m →
    if w.length + k ≤ m then ∃ s', r s = .ok s' ∧ buf s' = cont.take (m - w.length)
    else r s = .error stop

/-- `ReadsAhead` on the buffers of at least `lo` bytes: what a reader must do after one that
needed `lo` bytes of lookahead -/
def ReadsAheadFrom (lo : Nat) (r : σ → Except ε σ) (w : List α) (k : Nat) (cont : List α) :
    Prop :=
  ∀ s m, lo ≤ m → m ≤ (w ++ cont).length → buf s = (w ++ cont).take m →
    if w.length + k ≤ m then ∃ s', r s = .ok s' ∧ buf s' = cont.take (m - w.length)
    else r s = .error stop

variable {buf stop}
variable {r r₁ r₂ : σ → Except ε σ} {w w₁ w₂ cont : List α} {k k₁ k₂ : Nat}

theorem ReadsAhead.read (h : ReadsAhead buf stop r w k cont) {s : σ} {m : Nat}
    (hm : m ≤ (w ++ cont).length) (hs : buf s = (w ++ cont).take m) (hk : w.length + k ≤ m) :
    ∃ s', r s = .ok s' ∧ buf s' = cont.take (m - w.length) := by
  have h' := h s m hm hs
  rwa [if_pos hk] at h'

theorem ReadsAhead.short (h : ReadsAhead buf stop r w k cont) {s : σ} {m : Nat}
    (hm : m ≤ (w ++ cont).length) (hs : buf s = (w ++ cont).take m) (hk : m < w.length + k) :
    r s = .error stop := by
  have h' := h s m hm hs
  rwa [if_neg (Nat.not_le.mpr hk)] at h'

/-- A reader that agrees with one of `w` on the buffers it may see reads `w` too. -/
theorem ReadsAhead.congr (h : ReadsAhead buf stop r₁ w k cont)
    (he : ∀ s m, m ≤ (w ++ cont).length → buf s = (w ++ cont).take m → r₂ s = r₁ s) :
    ReadsAhead buf stop r₂ w k cont := by
  intro s m hm hs
  rw [he s m hm hs]
  exact h s m hm hs

theorem ReadsAhead.from (h : ReadsAhead buf stop r w k cont) (lo : Nat) :
    ReadsAheadFrom buf stop lo r w k cont :=
  fun s m _ hm hs => h s m hm hs

/-- Two readers in sequence read the two words: the lookahead the first needs lies within
the second word and the second's lookahead, and the second is only run on what the first
left of a buffer long enough for it. -/
theorem ReadsAhead.bind_from (h₁ : ReadsAhead buf stop r₁ w₁ k₁ (w₂ ++ cont))
    (h₂ : ReadsAheadFrom buf stop k₁ r₂ w₂ k₂ cont) (hk : k₁ ≤ w₂.length + k₂) :
    ReadsAhead buf stop (fun s => r₁ s >>= r₂) (w₁ ++ w₂) k₂ cont := by
  intro s m hm hs
  rw [List.append_assoc] at hm hs
  have hlen : (w₁ ++ w₂).length = w₁.length + w₂.length := List.length_append
  by_cases hk₁ : w₁.length + k₁ ≤ m
  · -- the first word is read; the second reader sees the rest of the buffer
    obtain ⟨s₁, hr₁, hs₁⟩ := h₁.read hm hs hk₁
    have hm₁ : m - w₁.length ≤ (w₂ ++ cont).length := by
      simp only [List.length_append] at hm ⊢
      omega
    have h₂' := h₂ s₁ (m - w₁.length) (by omega) hm₁ hs₁
    simp only [hr₁]
    show (if (w₁ ++ w₂).length + k₂ ≤ m then _ else r₂ s₁ = _)
    rw [hlen]
    by_cases hk₂ : w₂.length + k₂ ≤ m - w₁.length
    · rw [if_pos hk₂] at h₂'
      rw [if_pos (by omega)]
      obtain ⟨s₂, hr₂, hs₂⟩ := h₂'
      refine ⟨s₂, hr₂, ?_⟩
      rw [hs₂, Nat.sub_sub]
    · rw [if_neg hk₂] at h₂'
      rwa [if_neg (by omega)]
  · -- the buffer ends inside the first word or its lookahead
    rw [if_neg (by rw [hlen]; omega)]
    show r₁ s >>= r₂ = _
    rw [h₁.short hm hs (by omega)]
    rfl

theorem ReadsAhead.bind (h₁ : ReadsAhead buf stop r₁ w₁ k₁ (w₂ ++ cont))
    (h₂ : ReadsAhead buf stop r₂ w₂ k₂ cont) (hk : k₁ ≤ w₂.length + k₂) :
    ReadsAhead buf stop (fun s => r₁ s >>= r₂) (w₁ ++ w₂) k₂ cont :=
  h₁.bind_from (h₂.from k₁) hk

/-- A second reader whose word and lookahead lie within the lookahead of the first: the two
read their words with what is left of the first one's lookahead. -/
theorem ReadsAhead.bind_covered (h₁ : ReadsAhead buf stop r₁ w₁ k₁ (w₂ ++ cont))
    (h₂ : ReadsAheadFrom buf stop k₁ r₂ w₂ k₂ cont) (hk : w₂.length + k₂ ≤ k₁) :
    ReadsAhead buf stop (fun s => r₁ s >>= r₂) (w₁ ++ w₂) (k₁ - w₂.length) cont := by
  intro s m hm hs
  rw [List.append_assoc] at hm hs
  have hlen : (w₁ ++ w₂).length = w₁.length + w₂.length := List.length_append
  rw [hlen]
  by_cases hk₁ : w₁.length + k₁ ≤ m
  · -- both are read: the second sees at least its word and lookahead
    obtain ⟨s₁, hr₁, hs₁⟩ := h₁.read hm hs hk₁
    have hm₁ : m - w₁.length ≤ (w₂ ++ cont).length := by
      simp only [List.length_append] at hm ⊢
      omega
    have h₂' := h₂ s₁ (m - w₁.length) (by omega) hm₁ hs₁
    rw [if_pos (by omega)] at h₂'
    rw [if_pos (by omega)]
    obtain ⟨s₂, hr₂, hs₂⟩ := h₂'
    refine ⟨s₂, by simp only [hr₁]; exact hr₂, ?_⟩
    rw [hs₂, Nat.sub_sub]
  · rw [if_neg (by omega)]
    show r₁ s >>= r₂ = _
    rw [h₁.short hm hs (by omega)]
    rfl

end Reads

/-! ## feeding a decoder piece by piece -/

section Feed
variable {β : Type}

/-- `call` on each piece in turn, each time on the state the call before left: the outcomes
and the last state -/
def feed (call : σ → List α → β × σ) : σ → List (List α) → List β × σ
  | s, [] => ([], s)
  | s, x :: xs =>
    let b := call s x
    let bs := feed call b.2 xs
    (b.1 :: bs.1, bs.2)

theorem prefix_drop_of_append {x y S : List α} {L : Nat} (h : x ++ y <+: S.drop L) :
    x <+: S.drop L ∧ y <+: S.drop (L + x.length) := by
  obtain ⟨t, ht⟩ := h
  refine ⟨⟨y ++ t, by rw [← ht, List.append_assoc]⟩, ⟨t, ?_⟩⟩
  rw [← List.drop_drop, ← ht, List.append_assoc, List.drop_left]

/-- The buffer of a decoder that kept the first `m` bytes of the stream, with the next piece
appended, is the first `m` bytes and the piece. -/
theorem take_append_of_prefix_drop {l x : List α} {m : Nat} (h : x <+: l.drop m)
    (hm : m ≤ l.length) : l.take m ++ x = l.take (m + x.length) := by
  obtain ⟨t, ht⟩ := h
  have hl : l = l.take m ++ (x ++ t) := by rw [ht, List.take_append_drop]
  have hlen : (l.take m).length = m := by rw [List.length_take]; omega
  have key : (l.take m ++ (x ++ t)).take (m + x.length) = l.take m ++ x := by
    rw [List.take_append, List.take_of_length_le (by rw [hlen]; omega), hlen,
      Nat.add_sub_cancel_left, List.take_left' rfl]
  rw [← key, ← hl]

variable (call : σ → List α → β × σ) (S : List α) (Inv : Nat → σ → Prop) (out : Nat → β)

/-- A decoder that, from a state with the invariant after `L` bytes, answers a next piece
of the stream with `out` of the bytes fed then and keeps the invariant: fed any pieces of a
prefix of the stream, it answers each with `out` of the bytes fed so far. -/
theorem feed_spec
    (hcall : ∀ L s x, Inv L s → x ≠ [] → x <+: S.drop L →
      (call s x).1 = out (L + x.length) ∧ Inv (L + x.length) (call s x).2)
    (xs : List (List α)) (L : Nat) (s : σ) (hs : Inv L s) (hne : ∀ x ∈ xs, x ≠ [])
    (hpre : xs.flatten <+: S.drop L) :
    (feed call s xs).1 = xs.inits.tail.map (fun ys => out (L + ys.flatten.length)) ∧
      Inv (L + xs.flatten.length) (feed call s xs).2 := by
  induction xs generalizing L s with
  | nil => exact ⟨rfl, hs⟩
  | cons x xs ih =>
    rw [List.flatten_cons] at hpre
    obtain ⟨hx, hxs⟩ := prefix_drop_of_append hpre
    obtain ⟨hb, hinv⟩ := hcall L s x hs (hne x List.mem_cons_self) hx
    obtain ⟨hbs, hinv'⟩ := ih (L + x.length) (call s x).2 hinv
      (fun y hy => hne y (List.mem_cons_of_mem x hy)) hxs
    -- the inits of `x :: xs` are `[x]` and `x` before each later one of `xs`
    have hinits : xs.inits = [] :: xs.inits.tail := by
      cases xs <;> rfl
    refine ⟨?_, ?_⟩
    · show (call s x).1 :: (feed call (call s x).2 xs).1 = _
      rw [hbs, hb, List.inits_cons, List.tail_cons, hinits, List.map_cons, List.map_cons,
        List.map_map]
      simp only [List.tail_cons, List.flatten_cons, List.flatten_nil, List.append_nil,
        List.length_append, Function.comp_def, Nat.add_assoc]
    · show Inv _ (feed call (call s x).2 xs).2
      rw [List.flatten_cons, List.length_append, ← Nat.add_assoc]
      exact hinv'

end Feed

end Incremental
