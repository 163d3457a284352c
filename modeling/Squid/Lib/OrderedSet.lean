import Mathlib.Order.Comparable

/-!
# Ordered sets under a strict weak order

What a search tree over a strict weak order `lt` stands for: the strictly increasing list of
its elements, in which no two elements are incomparable.  Inserting a value that some element
is incomparable with changes nothing; removing a value drops the element incomparable with it.

* `insert`, `erase`, `find?`   the set operations on the list;
* `insert_of_split`, `erase_of_split`, `find?_of_split`   on a list whose elements lie below
  the value and then above it, apart from one element incomparable with it for `erase` and
  `find?`: what a search tree splayed at the value provides;
* `mem_insert`, `mem_insert_of_mem`, `exists_incompRel_insert`, `mem_erase`   membership;
* `head?_eq_some_iff`, `getLast?_eq_some_iff`   the ends of an increasing list are its least
  and its greatest element.
-/

namespace OrderedSet

universe u

variable {α : Type u}

section Ops
variable (lt : α → α → Prop) [DecidableRel lt]

/-- `v` is added unless an element incomparable with it is there already; it goes between the
elements below it and those above it. -/
def insert (v : α) (l : List α) : List α :=
  if l.any (fun y => decide (IncompRel lt y v)) then l
  else l.filter (fun y => decide (lt y v)) ++ v :: l.filter (fun y => decide (lt v y))

/-- the elements incomparable with `v` removed -/
def erase (v : α) (l : List α) : List α :=
  l.filter (fun y => !decide (IncompRel lt y v))

/-- the first element incomparable with `v` -/
def find? (v : α) (l : List α) : Option α :=
  l.find? (fun y => decide (IncompRel lt y v))

end Ops

/-- `m` is an element that no element lies below -/
def Least (lt : α → α → Prop) (l : List α) (m : α) : Prop := m ∈ l ∧ ∀ y ∈ l, ¬ lt y m

/-- `m` is an element that no element lies above -/
def Greatest (lt : α → α → Prop) (l : List α) (m : α) : Prop := m ∈ l ∧ ∀ y ∈ l, ¬ lt m y

section Incomparable
variable {lt : α → α → Prop} {a b c v : α} {p q : List α}

theorem not_incompRel_of_lt (h : lt a b) : ¬ IncompRel lt a b := fun h' => h'.1 h

theorem not_incompRel_of_gt (h : lt b a) : ¬ IncompRel lt a b := fun h' => h'.2 h

theorem not_incompRel_iff : ¬ IncompRel lt a b ↔ lt a b ∨ lt b a := by
  rw [IncompRel, not_and_or, not_not, not_not]

/-- Putting a value between the elements below it and those above it keeps a list
increasing. -/
theorem pairwise_split (hp : ∀ y ∈ p, lt y v) (hq : ∀ y ∈ q, lt v y)
    (hs : (p ++ q).Pairwise lt) : (p ++ v :: q).Pairwise lt := by
  rw [List.pairwise_append] at hs ⊢
  obtain ⟨hsp, hsq, hpq⟩ := hs
  refine ⟨hsp, List.pairwise_cons.mpr ⟨hq, hsq⟩, fun a ha b hb => ?_⟩
  rcases List.mem_cons.mp hb with rfl | hb
  · exact hp a ha
  · exact hpq a ha b hb

end Incomparable

section StrictWeakOrder
variable {lt : α → α → Prop} [IsStrictWeakOrder α lt] {a b c : α}

theorem incompRel_trans (hab : IncompRel lt a b) (hbc : IncompRel lt b c) : IncompRel lt a c :=
  IsStrictWeakOrder.incomp_trans a b c hab hbc

/-- Negative transitivity: an element lies above the lower or below the upper of two ordered
elements. -/
theorem lt_or_lt_of_lt (h : lt a b) (c : α) : lt a c ∨ lt c b := by
  by_contra hn
  rw [not_or] at hn
  obtain ⟨hac, hcb⟩ := hn
  have hca : ¬ lt c a := fun hca => hcb (trans_of lt hca h)
  have hbc : ¬ lt b c := fun hbc => hac (trans_of lt h hbc)
  exact (IsStrictWeakOrder.incomp_trans a c b ⟨hac, hca⟩ ⟨hcb, hbc⟩).1 h

theorem lt_of_lt_of_not_lt (h : lt a b) (h' : ¬ lt c b) : lt a c :=
  (lt_or_lt_of_lt h c).resolve_right h'

theorem lt_of_not_lt_of_lt (h' : ¬ lt a c) (h : lt a b) : lt c b :=
  (lt_or_lt_of_lt h c).resolve_left h'

end StrictWeakOrder

section Membership
variable {lt : α → α → Prop} [DecidableRel lt] {v y : α} {l p q : List α}

theorem mem_insert (h : y ∈ insert lt v l) : y = v ∨ y ∈ l := by
  unfold insert at h
  split_ifs at h
  · exact .inr h
  · simp only [List.mem_append, List.mem_filter, List.mem_cons] at h
    rcases h with h | rfl | h
    · exact .inr h.1
    · exact .inl rfl
    · exact .inr h.1

theorem mem_insert_of_mem (hy : y ∈ l) : y ∈ insert lt v l := by
  unfold insert
  split_ifs with hany
  · exact hy
  -- no element is incomparable with `v`, so `y` lies on one side of it
  · have hyv : ¬ IncompRel lt y v := by
      simpa using List.any_eq_false.mp (Bool.eq_false_iff.mpr hany) y hy
    simp only [IncompRel, not_and_or, not_not] at hyv
    simp only [List.mem_append, List.mem_filter, List.mem_cons, decide_eq_true_eq]
    rcases hyv with h | h
    · exact .inl ⟨hy, h⟩
    · exact .inr (.inr ⟨hy, h⟩)

theorem mem_erase : y ∈ erase lt v l ↔ y ∈ l ∧ ¬ IncompRel lt y v := by
  simp [erase]

theorem insert_of_mem (hy : y ∈ l) (h : IncompRel lt y v) : insert lt v l = l := by
  rw [insert, if_pos (List.any_eq_true.mpr ⟨y, hy, decide_eq_true h⟩)]

theorem erase_of_split (hp : ∀ z ∈ p, lt z v) (hq : ∀ z ∈ q, lt v z) (hy : IncompRel lt y v) :
    erase lt v (p ++ y :: q) = p ++ q := by
  rw [erase, List.filter_append, List.filter_cons_of_neg (by simpa using hy),
    List.filter_eq_self.mpr (by simpa using fun z hz => not_incompRel_of_lt (hp z hz)),
    List.filter_eq_self.mpr (by simpa using fun z hz => not_incompRel_of_gt (hq z hz))]

theorem find?_of_split (hp : ∀ z ∈ p, lt z v) (hy : IncompRel lt y v) :
    find? lt v (p ++ y :: q) = some y := by
  have hpnone : p.find? (fun y => decide (IncompRel lt y v)) = none :=
    List.find?_eq_none.mpr (by simpa using fun z hz => not_incompRel_of_lt (hp z hz))
  rw [find?, List.find?_append, hpnone, Option.none_or]
  exact List.find?_cons_of_pos (by simpa using hy)

theorem erase_of_forall (h : ∀ y ∈ l, lt y v ∨ lt v y) : erase lt v l = l := by
  refine List.filter_eq_self.mpr fun y hy => ?_
  rcases h y hy with h | h
  · simpa using not_incompRel_of_lt h
  · simpa using not_incompRel_of_gt h

theorem find?_of_forall (h : ∀ y ∈ l, lt y v ∨ lt v y) : find? lt v l = none := by
  refine List.find?_eq_none.mpr fun y hy => ?_
  rcases h y hy with h | h
  · simpa using not_incompRel_of_lt h
  · simpa using not_incompRel_of_gt h

theorem find?_eq_none_iff : find? lt v l = none ↔ ∀ y ∈ l, ¬ IncompRel lt y v := by
  simp [find?]

theorem find?_spec (h : find? lt v l = some y) : y ∈ l ∧ IncompRel lt y v := by
  unfold find? at h
  exact ⟨List.mem_of_find?_eq_some h, by simpa using List.find?_some h⟩

/-- In an increasing list the element incomparable with the value is the one `find?`
returns. -/
theorem find?_of_mem [IsStrictWeakOrder α lt] (hs : l.Pairwise lt) (hy : y ∈ l)
    (h : IncompRel lt y v) : find? lt v l = some y := by
  obtain ⟨p, q, rfl⟩ := List.append_of_mem hy
  have hp : ∀ z ∈ p, lt z v := fun z hz =>
    lt_of_lt_of_not_lt ((List.pairwise_append.mp hs).2.2 z hz y List.mem_cons_self) h.2
  exact find?_of_split hp h

variable [IsStrictOrder α lt]

/-- After an insertion some element is incomparable with the value. -/
theorem exists_incompRel_insert (v : α) (l : List α) :
    ∃ y ∈ insert lt v l, IncompRel lt y v := by
  unfold insert
  split_ifs with hany
  · simpa using hany
  · exact ⟨v, by simp, IncompRel.refl lt v⟩

theorem insert_of_split (hp : ∀ y ∈ p, lt y v) (hq : ∀ y ∈ q, lt v y) :
    insert lt v (p ++ q) = p ++ v :: q := by
  have hnone : (p ++ q).any (fun y => decide (IncompRel lt y v)) = false := by
    refine List.any_eq_false.mpr fun y hy => ?_
    rcases List.mem_append.mp hy with hy | hy
    · simpa using not_incompRel_of_lt (hp y hy)
    · simpa using not_incompRel_of_gt (hq y hy)
  have hbelow : (p ++ q).filter (fun y => decide (lt y v)) = p := by
    rw [List.filter_append, List.filter_eq_self.mpr (by simpa using hp),
      List.filter_eq_nil_iff.mpr (by simpa using fun y hy => asymm_of lt (hq y hy)),
      List.append_nil]
  have habove : (p ++ q).filter (fun y => decide (lt v y)) = q := by
    rw [List.filter_append,
      List.filter_eq_nil_iff.mpr (by simpa using fun y hy => asymm_of lt (hp y hy)),
      List.filter_eq_self.mpr (by simpa using hq), List.nil_append]
  rw [insert, hnone, if_neg Bool.false_ne_true, hbelow, habove]

end Membership

section Ends
variable {lt : α → α → Prop} [IsStrictOrder α lt] {l : List α} {m : α}

/-- The first element of an increasing list is its least element. -/
theorem head?_eq_some_iff (hs : l.Pairwise lt) : l.head? = some m ↔ Least lt l m := by
  cases l with
  | nil => simp [Least]
  | cons x l =>
    rw [List.pairwise_cons] at hs
    rw [List.head?_cons, Option.some.injEq]
    constructor
    · rintro rfl
      refine ⟨List.mem_cons_self, fun y hy => ?_⟩
      rcases List.mem_cons.mp hy with rfl | hy
      · exact irrefl_of lt y
      · exact asymm_of lt (hs.1 y hy)
    -- a least element cannot lie above the first one
    · rintro ⟨hm, hleast⟩
      rcases List.mem_cons.mp hm with rfl | hm
      · rfl
      · exact absurd (hs.1 m hm) (hleast x List.mem_cons_self)

/-- The last element of an increasing list is its greatest element. -/
theorem getLast?_eq_some_iff (hs : l.Pairwise lt) : l.getLast? = some m ↔ Greatest lt l m := by
  induction l with
  | nil => simp [Greatest]
  | cons x l ih =>
    rw [List.pairwise_cons] at hs
    cases l with
    | nil =>
      simp only [List.getLast?_singleton, Option.some.injEq, Greatest, List.mem_singleton,
        forall_eq]
      constructor
      · rintro rfl
        exact ⟨rfl, irrefl_of lt x⟩
      · rintro ⟨rfl, -⟩
        rfl
    | cons z l =>
      rw [List.getLast?_cons_cons, ih hs.2]
      constructor
      · rintro ⟨hm, hgreatest⟩
        refine ⟨List.mem_cons_of_mem x hm, fun y hy => ?_⟩
        rcases List.mem_cons.mp hy with rfl | hy
        · exact asymm_of lt (hs.1 m hm)
        · exact hgreatest y hy
      -- the first element is below the next one, so it is not the greatest
      · rintro ⟨hm, hgreatest⟩
        rcases List.mem_cons.mp hm with rfl | hm
        · exact absurd (hs.1 z List.mem_cons_self) (hgreatest z (by simp))
        · exact ⟨hm, fun y hy => hgreatest y (List.mem_cons_of_mem x hy)⟩

end Ends

end OrderedSet
