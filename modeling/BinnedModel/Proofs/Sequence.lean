import Mathlib
import BinnedModel.Registry.Blocks

/-!
# Traversals and blocks

A list of outcomes succeeds as a whole exactly if each of its items does, and what it
yields is related item by item to what it was made from. Lists that are put side by side
are read back through the starts of their blocks. Lists that are related item by item up to
order stay so when something is made from their items.
-/

namespace BinnedModel

variable {α β ε : Type}

/-- A sequence of two steps succeeds exactly if the first one does and the second one
succeeds on what the first one yields. -/
theorem bind_eq_ok_iff {x : Except ε α} {f : α → Except ε β} {b : β} :
    (x >>= f) = .ok b ↔ ∃ a, x = .ok a ∧ f a = .ok b := by
  cases x with
  | error e => simp [bind, Except.bind]
  | ok a => simp [bind, Except.bind]

/-- A successful outcome is changed without failing. -/
theorem map_eq_ok_iff {x : Except ε α} {f : α → β} {b : β} :
    x.map f = .ok b ↔ ∃ a, x = .ok a ∧ f a = b := by
  cases x with
  | error e => simp [Except.map]
  | ok a => simp [Except.map]

/-- An outcome is seen as a value exactly if it succeeds with this value. -/
theorem toOption_eq_some_iff {x : Except ε α} {a : α} : x.toOption = some a ↔ x = .ok a := by
  cases x with
  | error e => simp [Except.toOption]
  | ok a => simp [Except.toOption]

/-- A traversal yields a list exactly if it yields the items of the list one by one. -/
theorem mapM_eq_ok_iff {f : α → Except ε β} {xs : List α} {ys : List β} :
    xs.mapM f = .ok ys ↔ List.Forall₂ (fun x y => f x = .ok y) xs ys := by
  induction xs generalizing ys with
  | nil =>
    rw [List.mapM_nil, List.forall₂_nil_left_iff]
    exact ⟨fun h => by cases h; rfl, fun h => by rw [h]; rfl⟩
  | cons x xs ih =>
    simp only [List.mapM_cons, bind_eq_ok_iff, ih, List.forall₂_cons_left_iff]
    constructor
    · rintro ⟨z, hz, zs, hzs, he⟩
      cases he
      exact ⟨z, zs, hz, hzs, rfl⟩
    · rintro ⟨z, zs, hz, hzs, rfl⟩
      exact ⟨z, hz, zs, hzs, rfl⟩

/-- A traversal whose steps all succeed yields what they yield. -/
theorem mapM_eq_ok_map {f : α → Except ε β} {g : α → β} {xs : List α}
    (h : ∀ x ∈ xs, f x = .ok (g x)) : xs.mapM f = .ok (xs.map g) := by
  rw [mapM_eq_ok_iff, List.forall₂_map_right_iff, List.forall₂_same]
  exact h

/-- A traversal depends on its step at the items of the list. -/
theorem mapM_congr {f g : α → Except ε β} {xs : List α} (h : ∀ x ∈ xs, f x = g x) :
    xs.mapM f = xs.mapM g := by
  induction xs with
  | nil => rfl
  | cons x xs ih =>
    rw [List.mapM_cons, List.mapM_cons, h x List.mem_cons_self,
      ih fun y hy => h y (List.mem_cons_of_mem x hy)]

/-- What a traversal yields may be changed item by item before or after it. -/
theorem mapM_map_right {γ : Type} (f : α → Except ε β) (g : β → γ) (xs : List α) :
    xs.mapM (fun x => (f x).map g) = (xs.mapM f).map (List.map g) := by
  induction xs with
  | nil => rfl
  | cons x xs ih =>
    rw [List.mapM_cons, List.mapM_cons, ih]
    cases f x with
    | error e => rfl
    | ok y => cases xs.mapM f <;> rfl

/-- A traversal whose steps are all defined is defined. -/
theorem mapM_eq_some_of_forall₂ {f : α → Option β} {xs : List α} {ys : List β}
    (h : List.Forall₂ (fun x y => f x = some y) xs ys) : xs.mapM f = some ys := by
  induction h with
  | nil => rfl
  | cons hx _ ih =>
    rw [List.mapM_cons, hx, ih]
    rfl

/-- Items that each have a partner have a list of partners. -/
theorem exists_forall₂_iff {R : α → β → Prop} {xs : List α} :
    (∃ ys, List.Forall₂ R xs ys) ↔ ∀ x ∈ xs, ∃ y, R x y := by
  induction xs with
  | nil => simp
  | cons x xs ih =>
    constructor
    · rintro ⟨ys, h⟩
      cases h with
      | cons hx hxs => exact List.forall_mem_cons.mpr ⟨⟨_, hx⟩, ih.mp ⟨_, hxs⟩⟩
    · intro h
      obtain ⟨hx, hxs⟩ := List.forall_mem_cons.mp h
      obtain ⟨y, hy⟩ := hx
      obtain ⟨ys, hys⟩ := ih.mpr hxs
      exact ⟨y :: ys, .cons hy hys⟩

/-- A traversal succeeds exactly if each of its steps does. -/
theorem exists_mapM_eq_ok_iff {f : α → Except ε β} {xs : List α} :
    (∃ ys, xs.mapM f = .ok ys) ↔ ∀ x ∈ xs, ∃ y, f x = .ok y := by
  simp only [mapM_eq_ok_iff, exists_forall₂_iff]

/-- An item on the left of a relation between lists has its partner at the same index. -/
theorem getElem?_of_forall₂_left {R : α → β → Prop} {xs : List α} {ys : List β}
    (h : List.Forall₂ R xs ys) {i : ℕ} {x : α} (hx : xs[i]? = some x) :
    ∃ y, ys[i]? = some y ∧ R x y := by
  induction h generalizing i with
  | nil => simp at hx
  | cons hr _ ih =>
    cases i with
    | zero =>
      obtain rfl : _ = x := by simpa using hx
      exact ⟨_, rfl, hr⟩
    | succ i => exact ih (by simpa using hx)

/-- An item on the right of a relation between lists has its partner at the same index. -/
theorem getElem?_of_forall₂_right {R : α → β → Prop} {xs : List α} {ys : List β}
    (h : List.Forall₂ R xs ys) {i : ℕ} {y : β} (hy : ys[i]? = some y) :
    ∃ x, xs[i]? = some x ∧ R x y :=
  getElem?_of_forall₂_left h.flip hy

/-- An item on the left of a relation between lists has a partner. -/
theorem exists_mem_of_forall₂_left {R : α → β → Prop} {xs : List α} {ys : List β}
    (h : List.Forall₂ R xs ys) {x : α} (hx : x ∈ xs) : ∃ y ∈ ys, R x y := by
  obtain ⟨i, hi⟩ := List.mem_iff_getElem?.mp hx
  obtain ⟨y, hy, hr⟩ := getElem?_of_forall₂_left h hi
  exact ⟨y, List.mem_of_getElem? hy, hr⟩

/-- An item on the right of a relation between lists has a partner. -/
theorem exists_mem_of_forall₂_right {R : α → β → Prop} {xs : List α} {ys : List β}
    (h : List.Forall₂ R xs ys) {y : β} (hy : y ∈ ys) : ∃ x ∈ xs, R x y :=
  exists_mem_of_forall₂_left h.flip hy

/-- A relation between lists is weakened by what holds of the items on the left. -/
theorem forall₂_imp_of_mem {R S : α → β → Prop} {xs : List α} {ys : List β}
    (h : List.Forall₂ R xs ys) (himp : ∀ x ∈ xs, ∀ y, R x y → S x y) :
    List.Forall₂ S xs ys := by
  induction h with
  | nil => exact .nil
  | cons hr _ ih =>
    refine .cons (himp _ List.mem_cons_self _ hr) (ih fun x hx => ?_)
    exact himp x (List.mem_cons_of_mem _ hx)

/-- Lists related by equality of an attribute have the same list of attributes. -/
theorem map_eq_map_of_forall₂ {γ : Type} {f : α → γ} {g : β → γ} {xs : List α} {ys : List β}
    (h : List.Forall₂ (fun x y => f x = g y) xs ys) : xs.map f = ys.map g := by
  induction h with
  | nil => rfl
  | cons hr _ ih => rw [List.map_cons, List.map_cons, hr, ih]

/-- Two lists related to a common one have the same attributes if the items that are related to
one item do. -/
theorem map_eq_map_of_common {γ δ : Type} {R : α → β → Prop} {S : α → γ → Prop} {f : β → δ}
    {g : γ → δ} {xs : List α} {ys : List β} {zs : List γ} (h : List.Forall₂ R xs ys)
    (h' : List.Forall₂ S xs zs) (heq : ∀ x y z, R x y → S x z → f y = g z) :
    ys.map f = zs.map g := by
  induction h generalizing zs with
  | nil =>
    cases h'
    rfl
  | cons hr _ ih =>
    cases h' with
    | cons hs hrest => rw [List.map_cons, List.map_cons, heq _ _ _ hr hs, ih hrest]

/-- Names that are distinct and have not been met before. -/
def Fresh (seen names : List String) : Prop :=
  names.Nodup ∧ ∀ n ∈ names, n ∉ seen

/-- Names are fresh one after the other, each one being met before the next. -/
theorem fresh_cons_iff {seen : List String} {n : String} {ns : List String} :
    Fresh seen (n :: ns) ↔ n ∉ seen ∧ Fresh (n :: seen) ns := by
  rw [Fresh, Fresh, List.nodup_cons, List.forall_mem_cons]
  simp only [List.mem_cons, not_or]
  constructor
  · rintro ⟨⟨hn, hns⟩, hseen, hnew⟩
    exact ⟨hseen, hns, fun x hx => ⟨fun h => hn (h ▸ hx), hnew x hx⟩⟩
  · rintro ⟨hseen, hns, hnew⟩
    exact ⟨⟨fun h => (hnew n h).1 rfl, hns⟩, hseen, fun x hx => (hnew x hx).2⟩

/-- When nothing has been met, names are fresh if they are distinct. -/
theorem fresh_nil_iff {names : List String} : Fresh [] names ↔ names.Nodup := by
  simp [Fresh]

/-- Attributes of the items on the left of a zip are those of the whole list, if the other list is
not shorter. -/
theorem map_zip_left {γ : Type} {xs : List α} {ys : List β} (h : xs.length ≤ ys.length)
    (f : α → γ) : ((xs.zip ys).map fun z => f z.1) = xs.map f := by
  have hleft : (xs.zip ys).map Prod.fst = xs := List.map_fst_zip h
  nth_rewrite 2 [← hleft]
  rw [List.map_map]
  rfl

/-- Blocks together are as long as their lengths add up to. -/
theorem blockTotal_eq_sum (lengths : List ℕ) : blockTotal lengths = lengths.sum := by
  induction lengths with
  | nil => rfl
  | cons n ns ih => rw [List.sum_cons, ← ih]; rfl

/-- Consecutive blocks do not start before the first one does. -/
theorem le_of_mem_blockStarts {start b : ℕ} {lengths : List ℕ}
    (h : b ∈ blockStarts start lengths) : start ≤ b := by
  induction lengths generalizing start with
  | nil => cases h
  | cons n ns ih =>
    rcases List.mem_cons.mp h with rfl | h
    · exact Nat.le_refl _
    · have hle := ih h
      omega

/-- Lists side by side, read at the start of one of them and inside of it. -/
theorem getElem?_flatten_of_block {ls : List (List α)} {j k : ℕ} {l : List α}
    (hj : ls[j]? = some l) (hk : k < l.length) :
    ls.flatten[blockTotal ((ls.take j).map List.length) + k]? = l[k]? := by
  induction ls generalizing j with
  | nil => simp at hj
  | cons x xs ih =>
    cases j with
    | zero =>
      obtain rfl : x = l := by simpa using hj
      simp [blockTotal, List.getElem?_append_left hk]
    | succ j =>
      have hx : blockTotal (((x :: xs).take (j + 1)).map List.length) + k =
          x.length + (blockTotal ((xs.take j).map List.length) + k) := by
        simp [blockTotal, Nat.add_assoc]
      rw [hx, List.flatten_cons, List.getElem?_append_right (Nat.le_add_right _ _),
        Nat.add_sub_cancel_left]
      exact ih (by simpa using hj)

/-- A block ends within all blocks together. -/
theorem blockTotal_take_add_le {lengths : List ℕ} {j n : ℕ} (h : lengths[j]? = some n) :
    blockTotal (lengths.take j) + n ≤ blockTotal lengths := by
  induction lengths generalizing j with
  | nil => simp at h
  | cons m ms ih =>
    have hsum : blockTotal (m :: ms) = m + blockTotal ms := rfl
    cases j with
    | zero =>
      obtain rfl : m = n := by simpa using h
      simp [blockTotal]
    | succ j =>
      have hle := ih (by simpa using h)
      have htake : blockTotal ((m :: ms).take (j + 1)) = m + blockTotal (ms.take j) := rfl
      omega

/-- Every position within blocks side by side lies in one of them. -/
theorem exists_block_of_lt {lengths : List ℕ} {g : ℕ} (hg : g < blockTotal lengths) :
    ∃ j n k, lengths[j]? = some n ∧ k < n ∧ g = blockTotal (lengths.take j) + k := by
  induction lengths generalizing g with
  | nil => simp [blockTotal] at hg
  | cons n ns ih =>
    have hsum : blockTotal (n :: ns) = n + blockTotal ns := rfl
    by_cases hn : g < n
    · exact ⟨0, n, g, rfl, hn, by simp [blockTotal]⟩
    · obtain ⟨j, m, k, hj, hk, he⟩ := ih (g := g - n) (by omega)
      refine ⟨j + 1, m, k, hj, hk, ?_⟩
      have htake : blockTotal ((n :: ns).take (j + 1)) = n + blockTotal (ns.take j) := rfl
      omega

/-- Two lists are related item by item once the first one is put in another order. -/
def Permuted (R : α → β → Prop) (xs : List α) (ys : List β) : Prop :=
  ∃ zs, xs.Perm zs ∧ List.Forall₂ R zs ys

namespace Permuted

variable {γ δ : Type} {R : α → β → Prop} {xs : List α} {ys : List β}

/-- The second list may be put in another order instead. -/
theorem symm (h : Permuted R xs ys) : Permuted (fun y x => R x y) ys xs := by
  obtain ⟨zs, hperm, hrel⟩ := h
  obtain ⟨us, hus, hys⟩ := List.perm_comp_forall₂ hperm hrel
  exact ⟨us, hys.symm, hus.flip⟩

/-- A relation between lists in another order is weakened item by item. -/
theorem imp {S : α → β → Prop} (h : Permuted R xs ys) (himp : ∀ x y, R x y → S x y) :
    Permuted S xs ys := by
  obtain ⟨zs, hperm, hrel⟩ := h
  exact ⟨zs, hperm, hrel.imp himp⟩

/-- Each item of the second list has a partner in the first one. -/
theorem exists_left (h : Permuted R xs ys) {y : β} (hy : y ∈ ys) : ∃ x ∈ xs, R x y := by
  obtain ⟨zs, hperm, hrel⟩ := h
  obtain ⟨x, hx, hxy⟩ := exists_mem_of_forall₂_right hrel hy
  exact ⟨x, hperm.mem_iff.mpr hx, hxy⟩

/-- Attributes of related items are the same up to order if they are equal. -/
theorem perm_map {f : α → γ} {g : β → γ} (h : Permuted R xs ys)
    (heq : ∀ x y, R x y → f x = g y) : (xs.map f).Perm (ys.map g) := by
  obtain ⟨zs, hperm, hrel⟩ := h
  rw [← map_eq_map_of_forall₂ (hrel.imp heq)]
  exact hperm.map f

/-- Blocks of related items are together the same up to order if each of them is. -/
theorem perm_flatMap {f : α → List γ} {g : β → List γ} (h : Permuted R xs ys)
    (hblock : ∀ x y, R x y → (f x).Perm (g y)) : (xs.flatMap f).Perm (ys.flatMap g) := by
  obtain ⟨zs, hperm, hrel⟩ := h
  refine (hperm.flatMap_right f).trans ?_
  clear hperm
  induction hrel with
  | nil => exact .nil
  | cons hxy _ ih =>
    rw [List.flatMap_cons, List.flatMap_cons]
    exact (hblock _ _ hxy).append ih

/-- What is made from two lists item by item is related as the lists are. -/
theorem lift {S : α → γ → Prop} {T : β → δ → Prop} {us : List γ} {vs : List δ}
    (h : Permuted R xs ys) (hus : List.Forall₂ S xs us) (hvs : List.Forall₂ T ys vs) :
    Permuted (fun u v => ∃ x y, R x y ∧ S x u ∧ T y v) us vs := by
  obtain ⟨zs, hperm, hrel⟩ := h
  obtain ⟨ws, hws, huws⟩ := List.perm_comp_forall₂ hperm.symm hus
  refine ⟨ws, huws.symm, ?_⟩
  clear hperm huws hus
  induction hrel generalizing ws vs with
  | nil =>
    cases hws
    cases hvs
    exact .nil
  | cons hxy _ ih =>
    cases hws with
    | cons hx hws =>
      cases hvs with
      | cons hy hvs => exact .cons ⟨_, _, hxy, hx, hy⟩ (ih hvs _ hws)

end Permuted

/-- An item is found under its name if the names are distinct. -/
theorem find?_eq_some_of_mem {f : α → String} {xs : List α} (h : (xs.map f).Nodup) {x : α}
    (hx : x ∈ xs) : (xs.find? fun y => f y == f x) = some x := by
  induction xs with
  | nil => cases hx
  | cons y ys ih =>
    rw [List.map_cons, List.nodup_cons] at h
    rcases List.mem_cons.mp hx with rfl | hmem
    · simp
    · have hne : ¬ f y = f x := fun hname => h.1 (hname ▸ List.mem_map_of_mem hmem)
      rw [List.find?_cons_of_neg (by simpa using hne)]
      exact ih h.2 hmem

end BinnedModel
