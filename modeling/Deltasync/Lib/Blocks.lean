import Mathlib.Data.List.Induction
import Mathlib.Algebra.Order.Floor.Div
import Mathlib.Tactic.Ring

/-!
# Lists cut into blocks, and writes into them

`block b l k` is the `k`-th block of `b` elements of `l`, the last one being
possibly shorter.  `patch d l i x` overwrites `l` with `x` from position `i`
on, as a write at an offset does to a file.
-/

namespace Blocks

variable {α : Type*}

def block (b : ℕ) (l : List α) (k : ℕ) : List α := (l.drop (k * b)).take b

/-- `usize::div_ceil`. -/
def divCeil (n b : ℕ) : ℕ := n / b + if n % b = 0 then 0 else 1

/-- A write of `x` at position `i`; a hole before it is filled with `d`. -/
def patch (d : α) (l : List α) (i : ℕ) (x : List α) : List α :=
  l.take i ++ List.replicate (i - l.length) d ++ x ++ l.drop (i + x.length)

/-- `Vec::resize`. -/
def resize (d : α) (l : List α) (n : ℕ) : List α := l.take n ++ List.replicate (n - l.length) d

/-! ## Arithmetic of the cut -/

theorem lt_divCeil_iff {n b k : ℕ} (hb : 0 < b) : k < divCeil n b ↔ k * b < n := by
  have hn := Nat.div_add_mod n b
  have hlt := Nat.mod_lt n hb
  unfold divCeil
  constructor
  · intro h
    split_ifs at h with h0
    · have : (k + 1) * b ≤ n / b * b := Nat.mul_le_mul_right b (by omega)
      rw [Nat.mul_comm b] at hn
      rw [Nat.add_mul] at this
      omega
    · have : k * b ≤ n / b * b := Nat.mul_le_mul_right b (by omega)
      rw [Nat.mul_comm b] at hn
      omega
  · intro h
    by_contra hcon
    split_ifs at hcon with h0
    · have : n / b * b ≤ k * b := Nat.mul_le_mul_right b (by omega)
      rw [Nat.mul_comm b] at hn
      omega
    · have : (n / b + 1) * b ≤ k * b := Nat.mul_le_mul_right b (by omega)
      rw [Nat.mul_comm b] at hn
      rw [Nat.add_mul] at this
      omega

theorem divCeil_le_iff {n b k : ℕ} (hb : 0 < b) : divCeil n b ≤ k ↔ n ≤ k * b := by
  have h := lt_divCeil_iff (n := n) (k := k) hb
  omega

/-- One more block for each `b` elements more. -/
theorem divCeil_add_mul {b : ℕ} (hb : 0 < b) (n m : ℕ) :
    divCeil (n + m * b) b = divCeil n b + m := by
  rw [divCeil, divCeil, Nat.add_mul_div_right _ _ hb, Nat.add_mul_mod_self_right]
  omega

theorem divCeil_pos {n b : ℕ} (hb : 0 < b) (hn : 0 < n) : 0 < divCeil n b := by
  rw [lt_divCeil_iff hb]
  omega

@[simp] theorem length_block (b : ℕ) (l : List α) (k : ℕ) :
    (block b l k).length = min b (l.length - k * b) := by
  simp [block]

theorem divCeil_eq_succ_iff {n b k : ℕ} (hb : 0 < b) :
    divCeil n b = k + 1 ↔ k * b < n ∧ n ≤ k * b + b := by
  have h1 := lt_divCeil_iff (n := n) (k := k) hb
  have h2 := divCeil_le_iff (n := n) (k := k + 1) hb
  rw [Nat.succ_mul] at h2
  omega

/-- Block `k` is of one length in two lists, unless their lengths differ and the shorter one
ends inside of it. -/
theorem blockLength_eq_iff {b m n k : ℕ} (hb : 0 < b) (hm : k * b < m) (hn : k * b < n) :
    min b (m - k * b) = min b (n - k * b) ↔
      n = m ∨ b ∣ min n m ∨ k + 1 ≠ divCeil (min n m) b := by
  have hlast := divCeil_eq_succ_iff (n := min n m) (k := k) hb
  rcases Nat.lt_trichotomy (min n m) (k * b + b) with hlt | heq | hgt
  · have hdvd : ¬ b ∣ min n m := by
      intro h
      have hle := Nat.le_of_dvd (by omega) (Nat.dvd_sub h (Dvd.intro_left k rfl))
      omega
    have hk : divCeil (min n m) b = k + 1 := hlast.mpr (by omega)
    simp only [hdvd, hk, ne_eq, not_true_eq_false, or_false]
    omega
  · have hdvd : b ∣ min n m := ⟨k + 1, by rw [heq, Nat.mul_succ, Nat.mul_comm]⟩
    exact iff_of_true (by omega) (.inr (.inl hdvd))
  · have hk : k + 1 ≠ divCeil (min n m) b := by
      intro h
      have hend := (hlast.mp h.symm).2
      omega
    exact iff_of_true (by omega) (.inr (.inr hk))

/-! ## Writes -/

@[simp] theorem length_resize (d : α) (l : List α) (n : ℕ) : (resize d l n).length = n := by
  simp only [resize, List.length_append, List.length_take, List.length_replicate]
  omega

theorem resize_length (d : α) (l : List α) : resize d l l.length = l := by
  simp [resize]

theorem prefix_resize {d : α} {l x : List α} {n : ℕ} (hx : x <+: l) (hn : x.length ≤ n) :
    x <+: resize d l n := by
  obtain ⟨t, rfl⟩ := hx
  rw [resize, List.take_append, List.take_of_length_le hn, List.append_assoc]
  exact List.prefix_append _ _

theorem patch_of_le {d : α} {l x : List α} {i : ℕ} (h : i ≤ l.length) :
    patch d l i x = l.take i ++ x ++ l.drop (i + x.length) := by
  simp [patch, Nat.sub_eq_zero_of_le h]

theorem length_patch {d : α} {l x : List α} {i : ℕ} (h : i + x.length ≤ l.length) :
    (patch d l i x).length = l.length := by
  rw [patch_of_le (by omega)]
  simp only [List.length_append, List.length_take, List.length_drop]
  omega

@[simp] theorem patch_nil {d : α} {l : List α} {i : ℕ} (h : i ≤ l.length) :
    patch d l i [] = l := by
  rw [patch_of_le h]
  simp

/-- Two writes one after the other are one write. -/
theorem patch_append {d : α} {l x y : List α} {i : ℕ} (h : i + x.length ≤ l.length) :
    patch d (patch d l i x) (i + x.length) y = patch d l i (x ++ y) := by
  have hlen := length_patch (d := d) h
  rw [patch_of_le (by omega), patch_of_le (by omega : i ≤ l.length),
    patch_of_le (by omega : i ≤ l.length)]
  have h1 : (l.take i ++ x).length = i + x.length := by
    simp only [List.length_append, List.length_take]
    omega
  rw [List.take_append_of_le_length (by omega), List.take_of_length_le (by omega),
    List.drop_append, h1, List.drop_eq_nil_of_le (by omega : _ ≤ i + x.length + y.length),
    List.nil_append, List.drop_drop]
  simp only [List.length_append, List.append_assoc]
  congr 4
  omega

theorem take_patch {d : α} {l x : List α} {i : ℕ} (h : i ≤ l.length) :
    (patch d l i x).take (i + x.length) = l.take i ++ x := by
  rw [patch_of_le h, List.take_append_of_le_length (by simp; omega), List.take_of_length_le]
  simp

/-- A write right after the part of `l` that is known. -/
theorem prefix_patch {d : α} {l x y : List α} (hx : x <+: l) (h : x.length + y.length ≤ l.length) :
    x ++ y <+: patch d l x.length y := by
  have ht := take_patch (d := d) (x := y) (show x.length ≤ l.length by omega)
  rw [← List.prefix_iff_eq_take.mp hx] at ht
  rw [← ht]
  exact List.take_prefix _ _

theorem getElem?_patch {d : α} {l x : List α} {i j : ℕ} (h : i + x.length ≤ l.length) :
    (patch d l i x)[j]? = if i ≤ j ∧ j < i + x.length then x[j - i]? else l[j]? := by
  rw [patch_of_le (by omega)]
  have hi : (l.take i).length = i := by simp; omega
  split_ifs with hj
  · rw [List.getElem?_append_left (by simp; omega), List.getElem?_append_right (by omega), hi]
  · by_cases hlt : j < i
    · rw [List.append_assoc, List.getElem?_append_left (by omega), List.getElem?_take_of_lt hlt]
    · rw [List.getElem?_append_right (by simp; omega), List.getElem?_drop]
      congr 1
      simp only [List.length_append, hi]
      omega

theorem getElem?_block {b k j : ℕ} (l : List α) :
    (block b l k)[j]? = if j < b then l[k * b + j]? else none := by
  split_ifs with h
  · rw [block, List.getElem?_take_of_lt h, List.getElem?_drop]
  · exact List.getElem?_eq_none (by simp; omega)

/-- A list is the concatenation of its blocks: two lists with the same blocks are equal. -/
theorem eq_of_block_eq {b : ℕ} (hb : 0 < b) {l m : List α} (h : ∀ k, block b l k = block b m k) :
    l = m := by
  apply List.ext_getElem?
  intro i
  have hk := congrArg (fun x : List α => x[i % b]?) (h (i / b))
  simp only [getElem?_block, if_pos (Nat.mod_lt i hb)] at hk
  rwa [Nat.div_add_mod' i b] at hk

theorem lt_or_le_of_ne_block {b j k p : ℕ} (hjk : j ≠ k) (h1 : j * b ≤ p) (h2 : p < j * b + b) :
    p < k * b ∨ k * b + b ≤ p := by
  rcases Nat.lt_or_ge j k with h | h
  · have : (j + 1) * b ≤ k * b := Nat.mul_le_mul_right b h
    rw [Nat.add_mul] at this
    omega
  · have : (k + 1) * b ≤ j * b := Nat.mul_le_mul_right b (by omega)
    rw [Nat.add_mul] at this
    omega

/-- A write inside block `k` leaves the other blocks alone. -/
theorem block_patch_of_ne {b j k i : ℕ} {d : α} {l x : List α} (hjk : j ≠ k)
    (hk : k * b ≤ i) (hx : i + x.length ≤ k * b + b) (hl : i + x.length ≤ l.length) :
    block b (patch d l i x) j = block b l j := by
  apply List.ext_getElem?
  intro p
  simp only [getElem?_block, getElem?_patch hl]
  split_ifs with hp h
  · rcases lt_or_le_of_ne_block (b := b) hjk (p := j * b + p) (by omega) (by omega) with h' | h' <;>
      omega
  · rfl
  · rfl

/-- Writing a whole block puts it there. -/
theorem block_patch_self {b k : ℕ} {d : α} {l x : List α}
    (hx : x.length = min b (l.length - k * b)) (hk : k * b ≤ l.length) :
    block b (patch d l (k * b) x) k = x := by
  apply List.ext_getElem?
  intro p
  simp only [getElem?_block, getElem?_patch (show k * b + x.length ≤ l.length by omega)]
  split_ifs with hp h
  · simp
  · rw [List.getElem?_eq_none (by omega), List.getElem?_eq_none (by omega)]
  · rw [List.getElem?_eq_none (by omega)]

/-! ## Several writes -/

/-- The writes of a list, one after the other. -/
def overwrite (d : α) (l : List α) (writes : List (ℕ × List α)) : List α :=
  writes.foldl (fun l w => patch d l w.1 w.2) l

@[simp] theorem overwrite_concat (d : α) (l : List α) (writes : List (ℕ × List α))
    (w : ℕ × List α) :
    overwrite d l (writes ++ [w]) = patch d (overwrite d l writes) w.1 w.2 := by
  simp [overwrite]

theorem length_overwrite {d : α} {l : List α} {writes : List (ℕ × List α)}
    (h : ∀ w ∈ writes, w.1 + w.2.length ≤ l.length) : (overwrite d l writes).length = l.length := by
  induction writes using List.reverseRecOn with
  | nil => rfl
  | append_singleton writes w ih =>
    have hlen := ih fun v hv => h v (by simp [hv])
    rw [overwrite_concat, length_patch (by rw [hlen]; exact h w (by simp)), hlen]

/-- Writing blocks of `m` over a list of the same length makes it `m` in these blocks. -/
theorem block_overwrite {b : ℕ} {d : α} {l m : List α} (hlm : l.length = m.length) {ks : List ℕ}
    (hks : ∀ k ∈ ks, k * b ≤ m.length) (j : ℕ) :
    block b (overwrite d l (ks.map fun k => (k * b, block b m k))) j =
      if j ∈ ks then block b m j else block b l j := by
  induction ks using List.reverseRecOn with
  | nil => simp [overwrite]
  | append_singleton ks k ih =>
    have hk := hks k (by simp)
    have hin : ∀ i, i * b ≤ m.length → i * b + (block b m i).length ≤ l.length := by
      intro i hi
      rw [length_block]
      omega
    have hlen : (overwrite d l (ks.map fun k => (k * b, block b m k))).length = l.length := by
      refine length_overwrite fun w hw => ?_
      obtain ⟨i, hi, rfl⟩ := List.mem_map.mp hw
      exact hin i (hks i (by simp [hi]))
    have hkl := hin k hk
    rw [List.map_append, List.map_singleton, overwrite_concat]
    by_cases hj : j = k
    · subst hj
      rw [block_patch_self (by rw [length_block, hlen, hlm]) (by omega), if_pos (by simp)]
    · rw [block_patch_of_ne hj le_rfl (by rw [length_block]; omega) (by rw [hlen]; exact hkl),
        ih fun i hi => hks i (by simp [hi])]
      simp [hj]

/-! ## Writes that stop early -/

/-- The first `n` elements of `x`, and `y` from there on. -/
def graft (n : ℕ) (x y : List α) : List α := x.take n ++ y.drop n

theorem getElem?_graft {x y : List α} (h : x.length = y.length) (n i : ℕ) :
    (graft n x y)[i]? = if i < n then x[i]? else y[i]? := by
  unfold graft
  split_ifs with hi
  · by_cases hx : i < x.length
    · rw [List.getElem?_append_left (by simp; omega), List.getElem?_take_of_lt hi]
    · rw [List.getElem?_eq_none (by simp; omega), List.getElem?_eq_none (by omega)]
  · by_cases hy : n ≤ x.length
    · rw [List.getElem?_append_right (by simp; omega), List.getElem?_drop, List.length_take]
      congr 1
      omega
    · rw [List.getElem?_eq_none (by simp; omega), List.getElem?_eq_none (by omega)]

/-- A second write of the same source reaches as far as the longer one. -/
theorem graft_graft {x y : List α} (h : x.length = y.length) (m n : ℕ) :
    graft m x (graft n x y) = graft (max m n) x y := by
  have hlen : x.length = (graft n x y).length := by
    simp only [graft, List.length_append, List.length_take, List.length_drop]
    omega
  apply List.ext_getElem?
  intro i
  simp only [getElem?_graft hlen, getElem?_graft h, lt_max_iff]
  split_ifs <;> first | rfl | omega

/-- Writing the first elements of a block. -/
theorem block_patch_take {b k : ℕ} {d : α} {l m : List α} (hlm : l.length = m.length)
    (hk : k * b ≤ m.length) (n : ℕ) :
    block b (patch d l (k * b) ((block b m k).take n)) k =
      graft n (block b m k) (block b l k) := by
  have hfit : k * b + ((block b m k).take n).length ≤ l.length := by
    rw [List.length_take, length_block]
    omega
  apply List.ext_getElem?
  intro i
  simp only [getElem?_graft (show (block b m k).length = (block b l k).length by simp [hlm]),
    getElem?_patch hfit, getElem?_block, Nat.add_sub_cancel_left, List.getElem?_take,
    List.length_take, length_block]
  split_ifs with hb hw hn hn
  · rfl
  · omega
  · rw [List.getElem?_eq_none (by omega), List.getElem?_eq_none (by omega)]
  · rfl
  · rfl
  · rfl

/-- Writes that each begin a block of `m` leave every block of a list of the same length as a
graft of that of `m`; a block of which none was begun stays as it is. -/
theorem block_overwrite_take {b : ℕ} {d : α} {l m : List α} (hlm : l.length = m.length)
    {writes : List (ℕ × List α)}
    (h : ∀ w ∈ writes, ∃ k n, k * b ≤ m.length ∧ w = (k * b, (block b m k).take n)) (j : ℕ) :
    ∃ n, (n ≠ 0 → ∃ w ∈ writes, w.1 = j * b) ∧
      block b (overwrite d l writes) j = graft n (block b m j) (block b l j) := by
  induction writes using List.reverseRecOn with
  | nil => exact ⟨0, by simp, rfl⟩
  | append_singleton writes w ih =>
    have hfit : ∀ v ∈ writes ++ [w], v.1 + v.2.length ≤ l.length := by
      intro v hv
      obtain ⟨k, n, hk, rfl⟩ := h v hv
      rw [List.length_take, length_block]
      omega
    have hlen : (overwrite d l writes).length = l.length :=
      length_overwrite fun v hv => hfit v (by simp [hv])
    obtain ⟨n, hn, hblock⟩ := ih fun v hv => h v (by simp [hv])
    obtain ⟨k, m', hk, rfl⟩ := h w (by simp)
    rw [overwrite_concat]
    by_cases hj : j = k
    · subst hj
      refine ⟨max m' n, fun _ => ⟨_, List.mem_append_right _ (List.mem_singleton_self _), rfl⟩,
        ?_⟩
      rw [block_patch_take (by rw [hlen, hlm]) hk, hblock,
        graft_graft (by rw [length_block, length_block, hlm])]
    · refine ⟨n, fun h0 => ?_, ?_⟩
      · obtain ⟨v, hv, hvj⟩ := hn h0
        exact ⟨v, by simp [hv], hvj⟩
      · have hle := hfit (k * b, (block b m k).take m') (by simp)
        rw [block_patch_of_ne hj le_rfl _ (by rw [hlen]; exact hle), hblock]
        rw [List.length_take, length_block]
        omega

end Blocks
