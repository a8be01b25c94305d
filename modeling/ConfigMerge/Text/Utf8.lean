/-!
# Text/Utf8 — decoding bytes as UTF-8

`Utf8.decode` turns bytes into characters or says where and how they stop being UTF-8: after how
many good bytes, and whether the rest is wrong from its first one to three bytes or merely cut
short.
-/

namespace ConfigMerge.Utf8

/-- Where bytes stop being UTF-8: after `validUpTo` bytes comes either a wrong sequence of some
length or one that is cut short by the end. -/
structure Fault where
  validUpTo : Nat
  wrong : Option Nat
deriving DecidableEq

/-- What a fault is reported as. -/
def Fault.message (f : Fault) : String :=
  match f.wrong with
  | some n =>
    "invalid utf-8 sequence of " ++ toString n ++ " bytes from index " ++ toString f.validUpTo
  | none => "incomplete utf-8 byte sequence from index " ++ toString f.validUpTo

/-- How the bytes of a character begin: how many follow, the bits that the first byte gives, and the
range of the second byte, which rules out overlong forms, surrogates and numbers above the last. -/
structure Lead where
  following : Nat
  bits : Nat
  low : Nat
  high : Nat

/-- The lead that a first byte makes. -/
def lead? (b : Nat) : Option Lead :=
  if b < 0x80 then some ⟨0, b, 0x80, 0xBF⟩
  else if 0xC2 ≤ b ∧ b ≤ 0xDF then some ⟨1, b - 0xC0, 0x80, 0xBF⟩
  else if b = 0xE0 then some ⟨2, 0, 0xA0, 0xBF⟩
  else if b = 0xED then some ⟨2, b - 0xE0, 0x80, 0x9F⟩
  else if 0xE1 ≤ b ∧ b ≤ 0xEF then some ⟨2, b - 0xE0, 0x80, 0xBF⟩
  else if b = 0xF0 then some ⟨3, 0, 0x90, 0xBF⟩
  else if b = 0xF4 then some ⟨3, b - 0xF0, 0x80, 0x8F⟩
  else if 0xF1 ≤ b ∧ b ≤ 0xF3 then some ⟨3, b - 0xF0, 0x80, 0xBF⟩
  else none

/-- What has been read so far of a character: its first bits, how many bytes it has had, how many
are to come and the range of the next. -/
structure Pending where
  bits : Nat
  seen : Nat
  following : Nat
  low : Nat
  high : Nat

/-- Decodes bytes after `offset` good ones, within a character if one is pending. -/
def decodeFrom (offset : Nat) : Option Pending → List UInt8 → Except Fault (List Char)
  | none, [] => .ok []
  | some _, [] => .error ⟨offset, none⟩
  | none, b :: rest =>
    match lead? b.toNat with
    | none => .error ⟨offset, some 1⟩
    | some l =>
      if l.following = 0 then (decodeFrom (offset + 1) none rest).map (Char.ofNat l.bits :: ·)
      else decodeFrom offset (some ⟨l.bits, 1, l.following, l.low, l.high⟩) rest
  | some p, b :: rest =>
    if p.low ≤ b.toNat ∧ b.toNat ≤ p.high then
      let bits := p.bits * 64 + (b.toNat - 0x80)
      if p.following = 1 then
        (decodeFrom (offset + p.seen + 1) none rest).map (Char.ofNat bits :: ·)
      else decodeFrom offset (some ⟨bits, p.seen + 1, p.following - 1, 0x80, 0xBF⟩) rest
    else .error ⟨offset, some p.seen⟩

/-- The text that bytes encode. -/
def decode (bytes : List UInt8) : Except Fault String :=
  (decodeFrom 0 none bytes).map String.ofList

end ConfigMerge.Utf8
