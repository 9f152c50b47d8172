import GitShell.Proofs.Text.OrderedSet
import Mathlib.Data.List.Basic

/-!
# Text — ByteOrder

The order of texts by their code points is the order of their UTF-8 encodings, byte by byte.

* `KeepsOrder.withTail`: encodings that are in order, whatever follows them, still are when a byte
  with the next six bits is put after each.
* `KeepsOrder.ite`: encodings of two lengths are in order, since the first byte tells which.
* `keepsOrder_encode`: so the encodings of code points are in order.
* `Text.bytes_lt_bytes_iff`: texts and their encodings are in one order.
* `shorterFirst_iff_bytes`: the order of candidates, said with bytes.
-/

namespace GitShell

/-! ### Code points -/

/-- A first byte, with a mark above the bits it carries. -/
def firstByte (size mark n : Nat) : List UInt8 := [.ofNat (n % size + mark)]

/-- A further byte, with the last six bits. -/
def withTail (f : Nat → List UInt8) (n : Nat) : List UInt8 := f (n / 64) ++ [.ofNat (n % 64 + 128)]

/-- The UTF-8 encoding of a code point. -/
def encode (n : Nat) : List UInt8 :=
  if n ≤ 127 then firstByte 128 0 n
  else if n ≤ 2047 then withTail (firstByte 32 192) n
  else if n ≤ 65535 then withTail (withTail (firstByte 16 224)) n
  else withTail (withTail (withTail (firstByte 8 240))) n

theorem utf8EncodeChar_eq_encode (c : Char) : String.utf8EncodeChar c = encode c.val.toNat := by
  simp only [String.utf8EncodeChar, encode, withTail, firstByte, Nat.div_div_eq_div_mul,
    Nat.reduceMul, List.cons_append, List.nil_append, Nat.add_zero]
  refine ite_congr rfl (fun h => ?_) fun _ => rfl
  rw [Nat.mod_eq_of_lt (Nat.lt_succ_of_le h)]

/-- The numbers below `bound` have encodings in their order, whatever follows these.  Each starts with
a byte from `lo` on and below `hi`. -/
structure KeepsOrder (lo hi bound : Nat) (f : Nat → List UInt8) : Prop where
  leads : ∀ n, ∃ b r, lo ≤ b ∧ b < hi ∧ f n = .ofNat b :: r
  increasing : ∀ {v w}, v < w → w < bound → ∀ r s, f v ++ r < f w ++ s

theorem ofNat_cons_lt {a b : Nat} (h : a < b) (hb : b < 256) (r s : List UInt8) :
    UInt8.ofNat a :: r < UInt8.ofNat b :: s :=
  List.cons_lt_cons_iff.mpr (.inl ((UInt8.ofNat_lt_iff_lt (Nat.lt_trans h hb) hb).mpr h))

theorem keepsOrder_firstByte {size mark : Nat} (hsize : 0 < size) (h : size + mark ≤ 256) :
    KeepsOrder mark (size + mark) size (firstByte size mark) where
  leads n := ⟨n % size + mark, [], Nat.le_add_left .., Nat.add_lt_add_right (Nat.mod_lt n hsize) _,
    rfl⟩
  increasing {v w} hvw hw r s := by
    rw [firstByte, firstByte, Nat.mod_eq_of_lt hw, Nat.mod_eq_of_lt (Nat.lt_trans hvw hw)]
    have hbyte : w + mark < 256 := Nat.lt_of_lt_of_le (Nat.add_lt_add_right hw mark) h
    exact ofNat_cons_lt (Nat.add_lt_add_right hvw mark) hbyte r s

namespace KeepsOrder

variable {lo mid mid' hi bound : Nat} {f g : Nat → List UInt8}

/-- **A further byte** keeps the order. -/
theorem withTail (h : KeepsOrder lo hi bound f) :
    KeepsOrder lo hi (64 * bound) (withTail f) where
  leads n := by
    obtain ⟨b, r, hlo, hhi, hf⟩ := h.leads (n / 64)
    exact ⟨b, _, hlo, hhi, by rw [GitShell.withTail, hf]; rfl⟩
  increasing {v w} hvw hw r s := by
    rw [GitShell.withTail, GitShell.withTail, List.append_assoc, List.append_assoc]
    rcases Nat.lt_or_eq_of_le (Nat.div_le_div_right (c := 64) (Nat.le_of_lt hvw)) with hlt | heq
    · exact h.increasing hlt (Nat.div_lt_of_lt_mul hw) _ _
    · -- the bits before the last six are the same
      rw [heq]
      exact List.append_left_lt (ofNat_cons_lt (by omega) (by omega) r s)

/-- Where the first bytes are in order, so are the encodings. -/
theorem lt_of_leads (hf : KeepsOrder lo mid bound f) {bound' : Nat}
    (hg : KeepsOrder mid' hi bound' g) (hmid : mid ≤ mid') (hhi : hi ≤ 256) (v w : Nat)
    (r s : List UInt8) : f v ++ r < g w ++ s := by
  obtain ⟨b, r', -, hb, hfv⟩ := hf.leads v
  obtain ⟨c, s', hc, hchi, hgw⟩ := hg.leads w
  have hbc : b < c := Nat.lt_of_lt_of_le hb (Nat.le_trans hmid hc)
  rw [hfv, hgw]
  exact ofNat_cons_lt hbc (Nat.lt_of_lt_of_le hchi hhi) _ _

/-- **Encodings of two lengths** are in order if the longer ones start with greater bytes. -/
theorem ite {last : Nat} (hf : KeepsOrder lo mid (last + 1) f) (hg : KeepsOrder mid' hi bound g)
    (hmid : mid ≤ mid') (hhi : hi ≤ 256) :
    KeepsOrder lo hi bound fun n => if n ≤ last then f n else g n where
  leads n := by
    obtain ⟨b, r, hlo, hb, hfn⟩ := hf.leads n
    obtain ⟨c, s, hc, hchi, hgn⟩ := hg.leads n
    have hbc : b < c := Nat.lt_of_lt_of_le hb (Nat.le_trans hmid hc)
    split
    · exact ⟨b, r, hlo, Nat.lt_trans hbc hchi, hfn⟩
    · exact ⟨c, s, Nat.le_trans hlo (Nat.le_of_lt hbc), hchi, hgn⟩
  increasing {v w} hvw hw r s := by
    by_cases hwl : w ≤ last
    · rw [if_pos hwl, if_pos (Nat.le_trans (Nat.le_of_lt hvw) hwl)]
      exact hf.increasing hvw (Nat.lt_succ_of_le hwl) r s
    · rw [if_neg hwl]
      split
      · exact hf.lt_of_leads hg hmid hhi v w r s
      · exact hg.increasing hvw hw r s

end KeepsOrder

/-- **The encodings of code points** are in the order of the code points. -/
theorem keepsOrder_encode : KeepsOrder 0 248 2097152 encode := by
  have one : KeepsOrder 0 128 128 (firstByte 128 0) := keepsOrder_firstByte (by decide) (by decide)
  have two : KeepsOrder 192 224 2048 (withTail (firstByte 32 192)) :=
    (keepsOrder_firstByte (by decide) (by decide)).withTail
  have three : KeepsOrder 224 240 65536 (withTail (withTail (firstByte 16 224))) :=
    (keepsOrder_firstByte (by decide) (by decide)).withTail.withTail
  have four : KeepsOrder 240 248 2097152 (withTail (withTail (withTail (firstByte 8 240)))) :=
    (keepsOrder_firstByte (by decide) (by decide)).withTail.withTail.withTail
  exact one.ite (two.ite (three.ite four (by decide) (by decide)) (by decide) (by decide))
    (by decide) (by decide)

/-! ### Texts -/

namespace Text

/-- The UTF-8 encoding. -/
def bytes (t : Text) : List UInt8 := t.flatMap String.utf8EncodeChar

theorem bytes_lt_of_lt {t u : Text} (h : t < u) : t.bytes < u.bytes := by
  induction t generalizing u with
  | nil =>
      cases u with
      | nil => exact absurd h (List.lt_irrefl _)
      | cons d u =>
          obtain ⟨b, bs, hb⟩ := List.exists_cons_of_ne_nil (String.utf8EncodeChar_ne_nil (c := d))
          rw [bytes, bytes, List.flatMap_cons, hb]
          exact List.nil_lt_cons ..
  | cons c t ih =>
      cases u with
      | nil => exact absurd h (List.not_lt_nil _)
      | cons d u =>
          rw [bytes, bytes, List.flatMap_cons, List.flatMap_cons]
          rcases List.cons_lt_cons_iff.mp h with hlt | ⟨rfl, hlt⟩
          · have hd : d.val.toNat < 2097152 := by
              rcases d.valid with h | ⟨-, h⟩
              · exact Nat.lt_trans h (by decide)
              · exact Nat.lt_trans h (by decide)
            rw [utf8EncodeChar_eq_encode, utf8EncodeChar_eq_encode]
            exact keepsOrder_encode.increasing (UInt32.lt_iff_toNat_lt.mp hlt) hd _ _
          · exact List.append_left_lt (ih hlt)

/-- **Texts and their encodings** are in one order. -/
theorem bytes_lt_bytes_iff {t u : Text} : t.bytes < u.bytes ↔ t < u := by
  refine ⟨fun h => ?_, bytes_lt_of_lt⟩
  have htotal := le_total t u
  rw [Bool.or_eq_true, le_iff, le_iff] at htotal
  rcases htotal with (rfl | hlt) | rfl | hgt
  · exact absurd h (List.lt_irrefl _)
  · exact hlt
  · exact absurd h (List.lt_irrefl _)
  · exact absurd (List.lt_trans h (bytes_lt_of_lt hgt)) (List.lt_irrefl _)

end Text

/-- The order of candidates: by the number of characters, and then byte by byte. -/
theorem shorterFirst_iff_bytes {t u : Text} :
    ShorterFirst t u ↔ t.length < u.length ∨ t.length = u.length ∧ t.bytes < u.bytes := by
  rw [ShorterFirst, Text.bytes_lt_bytes_iff]

end GitShell
