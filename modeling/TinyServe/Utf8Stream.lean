import Mathlib.Data.Nat.Notation
import Mathlib.Tactic.SplitIfs

set_option autoImplicit false

/-!
Decoding UTF-8 that arrives in pieces. The decoder keeps what has begun of a sequence between
pieces, writes U+FFFD for what is not well formed and drops a byte order mark at the start.
-/
namespace Utf8Stream

section Feeding
variable {σ α β : Type}

/-- The outputs of a machine over its inputs, and the state it is left in. -/
def feed (step : σ → α → σ × List β) : σ → List α → σ × List β
  | s, [] => (s, [])
  | s, a :: rest =>
    let (s, out) := step s a
    let (s, more) := feed step s rest
    (s, out ++ more)

variable {step : σ → α → σ × List β}

@[simp] theorem feed_nil (s : σ) : feed step s [] = (s, []) := rfl

theorem feed_cons (s : σ) (a : α) (rest : List α) : feed step s (a :: rest) =
    ((feed step (step s a).1 rest).1, (step s a).2 ++ (feed step (step s a).1 rest).2) := rfl

/-- A cut between the inputs makes no difference. -/
theorem feed_append (s : σ) (as bs : List α) : feed step s (as ++ bs) =
    ((feed step (feed step s as).1 bs).1,
      (feed step s as).2 ++ (feed step (feed step s as).1 bs).2) := by
  induction as generalizing s with
  | nil => simp
  | cons a as ih => simp only [List.cons_append, feed_cons, ih, List.append_assoc]

end Feeding

section Decoding

/-- A sequence that has begun: its bits so far, the bytes missing, and the range of the next. -/
structure Pending where
  codePoint : ℕ
  missing : ℕ
  lower : ℕ
  upper : ℕ
  deriving DecidableEq

def replacement : Char := '\uFFFD'

def byteOrderMark : Char := '\uFEFF'

def lead (b : ℕ) : Option Pending × List Char :=
  if b ≤ 0x7F then
    (none, [Char.ofNat b])
  else if 0xC2 ≤ b ∧ b ≤ 0xDF then
    (some ⟨b - 0xC0, 1, 0x80, 0xBF⟩, [])
  else if 0xE0 ≤ b ∧ b ≤ 0xEF then
    (some ⟨b - 0xE0, 2, if b = 0xE0 then 0xA0 else 0x80, if b = 0xED then 0x9F else 0xBF⟩, [])
  else if 0xF0 ≤ b ∧ b ≤ 0xF4 then
    (some ⟨b - 0xF0, 3, if b = 0xF0 then 0x90 else 0x80, if b = 0xF4 then 0x8F else 0xBF⟩, [])
  else
    (none, [replacement])

/-- One byte. A byte out of range ends the sequence and is looked at once more. -/
def next (pending : Option Pending) (byte : UInt8) : Option Pending × List Char :=
  let b := byte.toNat
  match pending with
  | none => lead b
  | some p =>
    if p.lower ≤ b ∧ b ≤ p.upper then
      let codePoint := p.codePoint * 64 + (b - 0x80)
      if p.missing = 1 then
        (none, [Char.ofNat codePoint])
      else
        (some ⟨codePoint, p.missing - 1, 0x80, 0xBF⟩, [])
    else
      let (pending, chars) := lead b
      (pending, replacement :: chars)

structure Decoder where
  pending : Option Pending
  bomSeen : Bool

def Decoder.start : Decoder := ⟨none, false⟩

/-- One byte; the first character is dropped if it is a byte order mark. -/
def Decoder.step (d : Decoder) (byte : UInt8) : Decoder × List Char :=
  let (pending, chars) := next d.pending byte
  match d.bomSeen, chars with
  | false, c :: rest => (⟨pending, true⟩, if c = byteOrderMark then rest else c :: rest)
  | bomSeen, chars => (⟨pending, bomSeen⟩, chars)

def Decoder.decode (d : Decoder) (bytes : List UInt8) : Decoder × List Char :=
  feed Decoder.step d bytes

def encode (text : List Char) : List UInt8 := text.flatMap String.utf8EncodeChar

theorem next_lead {n : ℕ} (h : n < 256) : next none (UInt8.ofNat n) = lead n := by
  rw [next, UInt8.toNat_ofNat_of_lt' h]

/-- A byte in range goes into the sequence. -/
theorem next_more {codePoint missing lower upper n : ℕ} (hn : n < 64) (hl : lower ≤ n + 128)
    (hu : n + 128 ≤ upper) :
    next (some ⟨codePoint, missing + 2, lower, upper⟩) (UInt8.ofNat (n + 128)) =
      (some ⟨codePoint * 64 + n, missing + 1, 0x80, 0xBF⟩, []) := by
  have hlt : n + 128 < UInt8.size := by simp only [UInt8.size]; omega
  have hmore : ¬ missing + 2 = 1 := by omega
  simp only [next, UInt8.toNat_ofNat_of_lt' hlt, hl, hu, and_self, ↓reduceIte, hmore,
    Nat.add_sub_cancel]
  rfl

/-- The last byte of a sequence ends it. -/
theorem next_last {codePoint n m : ℕ} (hn : n < 64) (hm : codePoint * 64 + n = m) :
    next (some ⟨codePoint, 1, 0x80, 0xBF⟩) (UInt8.ofNat (n + 128)) = (none, [Char.ofNat m]) := by
  have hlt : n + 128 < UInt8.size := by simp only [UInt8.size]; omega
  have hin : 0x80 ≤ n + 128 ∧ n + 128 ≤ 0xBF := by omega
  simp only [next, UInt8.toNat_ofNat_of_lt' hlt, hin, and_self, ↓reduceIte, Nat.add_sub_cancel, hm]

theorem lead_two {n : ℕ} (h2 : 2 ≤ n) (h : n < 32) :
    lead (n + 192) = (some ⟨n, 1, 0x80, 0xBF⟩, []) := by
  rw [lead, if_neg (by omega), if_pos (by omega), Nat.add_sub_cancel]

theorem lead_three {n : ℕ} (h : n < 16) : lead (n + 224) =
    (some ⟨n, 2, if n = 0 then 0xA0 else 0x80, if n = 13 then 0x9F else 0xBF⟩, []) := by
  rw [lead, if_neg (by omega), if_neg (by omega), if_pos (by omega), Nat.add_sub_cancel]
  simp only [Nat.reduceEqDiff, Nat.add_eq_right]

theorem lead_four {n : ℕ} (h : n < 5) : lead (n + 240) =
    (some ⟨n, 3, if n = 0 then 0x90 else 0x80, if n = 4 then 0x8F else 0xBF⟩, []) := by
  rw [lead, if_neg (by omega), if_neg (by omega), if_neg (by omega), if_pos (by omega),
    Nat.add_sub_cancel]
  simp only [Nat.reduceEqDiff, Nat.add_eq_right]

/-- The bytes of a character give the character. -/
theorem next_encodeChar (c : Char) : feed next none (String.utf8EncodeChar c) = (none, [c]) := by
  have hvalid : c.toNat < 0xD800 ∨ 0xDFFF < c.toNat ∧ c.toNat < 0x110000 := c.valid
  have hc : c.val.toNat = c.toNat := rfl
  unfold String.utf8EncodeChar
  simp only [hc]
  split_ifs with h1 h2 h3
  · rw [feed_cons, next_lead (by omega), lead, if_pos h1, Char.ofNat_toNat]
    rfl
  · have hlast := @next_last (c.toNat / 64 % 32) (c.toNat % 64) c.toNat (by omega) (by omega)
    rw [feed_cons, next_lead (by omega), lead_two (by omega) (by omega), feed_cons, hlast,
      Char.ofNat_toNat]
    rfl
  · have hfirst := lead_three (show c.toNat / 4096 % 16 < 16 by omega)
    have hlast := @next_last (c.toNat / 4096 % 16 * 64 + c.toNat / 64 % 64) (c.toNat % 64) c.toNat
      (by omega) (by omega)
    rw [feed_cons, next_lead (by omega), hfirst, feed_cons, next_more (by omega)
      (by split_ifs <;> omega) (by split_ifs <;> omega), feed_cons, hlast, Char.ofNat_toNat]
    rfl
  · have hfirst := lead_four (show c.toNat / 262144 % 8 < 5 by omega)
    have hlast := @next_last ((c.toNat / 262144 % 8 * 64 + c.toNat / 4096 % 64) * 64 +
      c.toNat / 64 % 64) (c.toNat % 64) c.toNat (by omega) (by omega)
    rw [feed_cons, next_lead (by omega), hfirst, feed_cons, next_more (by omega)
      (by split_ifs <;> omega) (by split_ifs <;> omega), feed_cons,
      next_more (by omega) (by omega) (by omega), feed_cons, hlast, Char.ofNat_toNat]
    rfl

theorem next_encode (text : List Char) : feed next none (encode text) = (none, text) := by
  induction text with
  | nil => rfl
  | cons c text ih =>
    rw [encode, List.flatMap_cons, feed_append, next_encodeChar, ← encode, ih]
    rfl

/-- What a decoder makes of its first characters. -/
def dropMark : List Char → List Char
  | [] => []
  | c :: rest => if c = byteOrderMark then rest else c :: rest

theorem decode_started (pending : Option Pending) (bytes : List UInt8) :
    Decoder.decode ⟨pending, true⟩ bytes =
      (⟨(feed next pending bytes).1, true⟩, (feed next pending bytes).2) := by
  induction bytes generalizing pending with
  | nil => rfl
  | cons b bytes ih =>
    have hstep : Decoder.step ⟨pending, true⟩ b =
        (⟨(next pending b).1, true⟩, (next pending b).2) := rfl
    rw [Decoder.decode, feed_cons, hstep, ← Decoder.decode, ih, feed_cons]

theorem decode_fresh (pending : Option Pending) (bytes : List UInt8) :
    (Decoder.decode ⟨pending, false⟩ bytes).2 = dropMark (feed next pending bytes).2 := by
  induction bytes generalizing pending with
  | nil => rfl
  | cons b bytes ih =>
    rw [Decoder.decode, feed_cons, feed_cons]
    cases h : next pending b with
    | mk p chars =>
      cases chars with
      | nil =>
        have hstep : Decoder.step ⟨pending, false⟩ b = (⟨p, false⟩, []) := by
          simp only [Decoder.step, h]
        rw [hstep]
        exact ih p
      | cons c rest =>
        have hstep : Decoder.step ⟨pending, false⟩ b =
            (⟨p, true⟩, if c = byteOrderMark then rest else c :: rest) := by
          simp only [Decoder.step, h]
        rw [hstep, ← Decoder.decode, decode_started]
        simp only [List.cons_append, dropMark]
        split_ifs <;> rfl

/-- Encoded text comes out as it went in, but for a byte order mark at its start. -/
theorem decode_encode (text : List Char) :
    (Decoder.start.decode (encode text)).2 = dropMark text := by
  rw [Decoder.start, decode_fresh, next_encode]

theorem decode_append (d : Decoder) (as bs : List UInt8) : d.decode (as ++ bs) =
    (((d.decode as).1.decode bs).1, (d.decode as).2 ++ ((d.decode as).1.decode bs).2) :=
  feed_append d as bs

end Decoding

end Utf8Stream
