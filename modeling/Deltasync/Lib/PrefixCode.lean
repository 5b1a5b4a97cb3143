import Mathlib.Data.List.Forall2

/-!
# Prefix codes

`R c a` says that `c` is a codeword of the symbol `a`, which may have several.  A
code is a prefix code when no codeword starts another one.  A byte stream that is
a concatenation of codewords is then cut into them in one way only, and this is
also true of every prefix of such a stream.
-/

namespace PrefixCode

open List

variable {α β : Type*} {R : List β → α → Prop}

/-- A codeword followed by anything tells where it ends and what its symbol is, and no
codeword is empty. -/
structure IsPrefixCode (R : List β → α → Prop) : Prop where
  ne_nil : ∀ c a, R c a → c ≠ []
  eq_of_append : ∀ c d a b x y, R c a → R d b → c ++ x = d ++ y → c = d ∧ a = b

/-- The codewords of a list of symbols that all have the same encoder. -/
theorem forall₂_map_enc {enc : α → List β} {l : List α} (h : ∀ a ∈ l, R (enc a) a) :
    Forall₂ R (l.map enc) l := by
  rw [forall₂_map_left_iff, forall₂_same]
  exact h

theorem exists_codeword {cs : List (List β)} {l : List α} (h : Forall₂ R cs l) {a : α}
    (ha : a ∈ l) : ∃ c, R c a := by
  induction h with
  | nil => simp at ha
  | cons hcb _ ih =>
    rcases mem_cons.mp ha with rfl | ha
    · exact ⟨_, hcb⟩
    · exact ih ha

/-- A stream that begins with codewords of `l` and is itself the beginning of the
codewords of `m` cuts into the same ones: what is left over belongs to the rest. -/
theorem IsPrefixCode.exists_tail (hc : IsPrefixCode R) {cs ds : List (List β)} {l m : List α}
    {rest : List β} (hl : Forall₂ R cs l) (hm : Forall₂ R ds m)
    (h : cs.flatten ++ rest <+: ds.flatten) :
    ∃ ds' m', ds = cs ++ ds' ∧ m = l ++ m' ∧ rest <+: ds'.flatten := by
  induction hl generalizing ds m with
  | nil => exact ⟨ds, m, rfl, rfl, by simpa using h⟩
  | @cons c a cs l hca _ ih =>
    obtain ⟨t, ht⟩ := h
    cases hm with
    | nil =>
      simp only [flatten_cons, flatten_nil, append_assoc, append_eq_nil_iff] at ht
      exact absurd ht.1 (hc.ne_nil c a hca)
    | @cons d b ds m hdb hm =>
      simp only [flatten_cons, append_assoc] at ht
      obtain ⟨rfl, rfl⟩ := hc.eq_of_append c d a b _ _ hca hdb ht
      obtain ⟨ds', m', rfl, rfl, hr⟩ :=
        ih hm ⟨t, by simpa only [append_assoc] using append_cancel_left ht⟩
      exact ⟨ds', m', rfl, rfl, hr⟩

/-- A stream that begins with codewords of `l`, in codewords of `m` and a rest in which none
begins: `l` begins `m`. -/
theorem IsPrefixCode.prefix_of_append (hc : IsPrefixCode R) {cs ds : List (List β)}
    {l m : List α} {rest tail : List β} (hl : Forall₂ R cs l) (hm : Forall₂ R ds m)
    (htail : ∀ c a x, R c a → c ++ x ≠ tail) (h : cs.flatten ++ rest <+: ds.flatten ++ tail) :
    cs <+: ds ∧ l <+: m := by
  induction hl generalizing ds m with
  | nil => exact ⟨ nil_prefix, nil_prefix⟩
  | @cons c a cs l hca _ ih =>
    obtain ⟨t, ht⟩ := h
    simp only [flatten_cons, append_assoc] at ht
    cases hm with
    | nil => exact absurd ht (htail c a _ hca)
    | @cons d b ds m hdb hm =>
      simp only [flatten_cons, append_assoc] at ht
      obtain ⟨rfl, rfl⟩ := hc.eq_of_append c d a b _ _ hca hdb ht
      obtain ⟨hcs, hlm⟩ := ih hm ⟨t, by simpa only [append_assoc] using append_cancel_left ht⟩
      exact ⟨(prefix_cons_inj c).mpr hcs, (prefix_cons_inj a).mpr hlm⟩

/-- A stream is cut into codewords, and a rest in which none begins, in one way only. -/
theorem IsPrefixCode.eq_of_append_eq (hc : IsPrefixCode R) {cs ds : List (List β)} {l m : List α}
    {rest tail : List β} (hl : Forall₂ R cs l) (hm : Forall₂ R ds m)
    (hrest : ∀ c a x, R c a → c ++ x ≠ rest) (htail : ∀ c a x, R c a → c ++ x ≠ tail)
    (h : cs.flatten ++ rest = ds.flatten ++ tail) : cs = ds ∧ l = m := by
  obtain ⟨hcd, hlm⟩ := hc.prefix_of_append hl hm htail ⟨[], by rw [append_nil, h]⟩
  obtain ⟨hdc, hml⟩ := hc.prefix_of_append hm hl hrest ⟨[], by rw [append_nil, h]⟩
  exact ⟨hcd.eq_of_length (Nat.le_antisymm hcd.length_le hdc.length_le),
    hlm.eq_of_length (Nat.le_antisymm hlm.length_le hml.length_le)⟩

end PrefixCode
