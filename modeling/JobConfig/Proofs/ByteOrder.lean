import Mathlib.Data.String.Basic
import Mathlib.Tactic.SplitIfs

/-!
# Texts in byte order

Texts are compared character by character, by code points. In UTF-8 this is the order of their bytes
(`lt_iff_bytes_lt`): a character with a greater code point is not written with fewer bytes, and at
the first byte that differs its own is the greater one (`encode_append_lt`).
-/

namespace JobConfig.Utf8

/-- The bytes in which a text is written. -/
def bytes (s : String) : List UInt8 :=
  s.toByteArray.data.toList

theorem bytes_eq (s : String) : bytes s = s.toList.flatMap String.utf8EncodeChar := by
  rw [bytes, ← String.utf8Encode_toList, List.utf8Encode, List.toList_data_toByteArray]

/-- Of two lists of bytes that are equally long the smaller one stays smaller, whatever follows. -/
theorem append_lt_append {u v : List UInt8} (h : u < v) (hl : u.length = v.length)
    (x y : List UInt8) : u ++ x < v ++ y := by
  induction u generalizing v with
  | nil =>
    cases v with
    | nil => exact absurd h (List.lt_irrefl [])
    | cons b v => cases hl
  | cons a u ih =>
    cases v with
    | nil => cases hl
    | cons b v =>
      rw [List.cons_append, List.cons_append, List.cons_lt_cons_iff]
      rcases List.cons_lt_cons_iff.mp h with hab | ⟨hab, huv⟩
      · exact .inl hab
      · exact .inr ⟨hab, ih huv (Nat.succ.inj hl)⟩

/-- The first byte decides, if it is not the same. -/
theorem ofNat_cons_lt {m n : Nat} (h : m < n) (hn : n < 256) (x y : List UInt8) :
    UInt8.ofNat m :: x < UInt8.ofNat n :: y :=
  List.cons_lt_cons_iff.mpr (.inl ((UInt8.ofNat_lt_iff_lt (h.trans hn) hn).mpr h))

/-! ## Characters -/

/-- The first byte of a character that takes several, by the bits that it holds. -/
def firstByte (mark bits n : Nat) : List UInt8 :=
  [UInt8.ofNat (n % bits + mark)]

/-- One more byte of a character, which holds the last six bits. -/
def withByte (front : Nat → List UInt8) (n : Nat) : List UInt8 :=
  front (n / 64) ++ [UInt8.ofNat (n % 64 + 128)]

@[simp] theorem length_firstByte (mark bits n : Nat) : (firstByte mark bits n).length = 1 := rfl

@[simp] theorem length_withByte (front : Nat → List UInt8) (n : Nat) :
    (withByte front n).length = (front (n / 64)).length + 1 := by
  rw [withByte, List.length_append, List.length_singleton]

theorem firstByte_lt {mark bits m n : Nat} (hb : bits + mark ≤ 256) (h : m < n) (hn : n < bits) :
    firstByte mark bits m < firstByte mark bits n := by
  rw [firstByte, firstByte, Nat.mod_eq_of_lt (h.trans hn), Nat.mod_eq_of_lt hn]
  exact ofNat_cons_lt (by omega) (by omega) [] []

/-- What precedes the last byte decides, unless it is the same. -/
theorem withByte_lt {front : Nat → List UInt8} {m n : Nat}
    (hl : (front (m / 64)).length = (front (n / 64)).length)
    (hf : m / 64 < n / 64 → front (m / 64) < front (n / 64)) (h : m < n) :
    withByte front m < withByte front n := by
  rcases Nat.lt_or_eq_of_le (Nat.div_le_div_right (c := 64) h.le) with hd | hd
  · exact append_lt_append (hf hd) hl _ _
  · rw [withByte, withByte, hd]
    exact List.append_left_lt (ofNat_cons_lt (by omega) (by omega) [] [])

/-- The bytes of a character, by its code point. -/
def encode (n : Nat) : List UInt8 :=
  if n ≤ 0x7f then firstByte 0 128 n
  else if n ≤ 0x7ff then withByte (firstByte 192 32) n
  else if n ≤ 0xffff then withByte (withByte (firstByte 224 16)) n
  else withByte (withByte (withByte (firstByte 240 8))) n

theorem utf8EncodeChar_eq (c : Char) : String.utf8EncodeChar c = encode c.val.toNat := by
  unfold String.utf8EncodeChar encode
  dsimp only
  split_ifs with h
  · rw [firstByte, Nat.mod_eq_of_lt (by omega), Nat.add_zero]
  · rfl
  · simp only [withByte, firstByte, Nat.div_div_eq_div_mul]
    rfl
  · simp only [withByte, firstByte, Nat.div_div_eq_div_mul]
    rfl

/-- The bytes of a smaller character are smaller, whatever follows. -/
theorem encode_append_lt {m n : Nat} (h : m < n) (hn : n < 0x110000) (x y : List UInt8) :
    encode m ++ x < encode n ++ y := by
  unfold encode
  split_ifs
  -- A smaller character does not take more bytes, and one that takes fewer begins with a smaller one.
  all_goals try first
    | omega
    | exact ofNat_cons_lt (by omega) (by omega) _ _
  -- What is left is two characters of two bytes each, of three or of four.
  · refine append_lt_append (withByte_lt (by simp) (fun h => ?_) h) (by simp) x y
    exact firstByte_lt (by omega) h (by omega)
  · refine append_lt_append (withByte_lt (by simp) (withByte_lt (by simp) fun h => ?_) h)
      (by simp) x y
    exact firstByte_lt (by omega) h (by omega)
  · refine append_lt_append (withByte_lt (by simp) (withByte_lt (by simp)
      (withByte_lt (by simp) fun h => ?_)) h) (by simp) x y
    exact firstByte_lt (by omega) h (by omega)

theorem utf8EncodeChar_append_lt {c d : Char} (h : c < d) (x y : List UInt8) :
    String.utf8EncodeChar c ++ x < String.utf8EncodeChar d ++ y := by
  have hd : d.val.toNat < 0x110000 := by
    have hv := d.valid
    simp only [UInt32.isValidChar, Nat.isValidChar] at hv
    omega
  rw [utf8EncodeChar_eq, utf8EncodeChar_eq]
  exact encode_append_lt h hd x y

theorem flatMap_encode_lt {cs ds : List Char} (h : cs < ds) :
    cs.flatMap String.utf8EncodeChar < ds.flatMap String.utf8EncodeChar := by
  induction cs generalizing ds with
  | nil =>
    cases ds with
    | nil => exact absurd h (List.lt_irrefl [])
    | cons d ds =>
      rw [List.flatMap_nil, List.flatMap_cons]
      cases he : String.utf8EncodeChar d with
      | nil => exact absurd he String.utf8EncodeChar_ne_nil
      | cons b bs => exact List.nil_lt_cons ..
  | cons c cs ih =>
    cases ds with
    | nil => exact absurd h (List.not_lt_nil _)
    | cons d ds =>
      rw [List.flatMap_cons, List.flatMap_cons]
      rcases List.cons_lt_cons_iff.mp h with hcd | ⟨rfl, hcs⟩
      · exact utf8EncodeChar_append_lt hcd ..
      · exact List.append_left_lt (ih hcs)

/-- Texts are in the order of their bytes. -/
theorem lt_iff_bytes_lt (s t : String) : s < t ↔ bytes s < bytes t := by
  have hb {s t : String} (h : s < t) : bytes s < bytes t := by
    rw [bytes_eq, bytes_eq]
    exact flatMap_encode_lt h
  refine ⟨hb, fun h => ?_⟩
  rcases lt_trichotomy s t with hs | rfl | hs
  · exact hs
  · exact absurd h (List.lt_irrefl _)
  · exact absurd (hb hs) (List.lt_asymm h)

end JobConfig.Utf8
