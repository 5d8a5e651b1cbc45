/-
Base64 with padding: three bytes to four digits, and what is written is read back.

It is the standard alphabet with padding, which is what the `base64` crate documents its
engine `STANDARD` to write and to read.
-/
import Mathlib.Data.List.Basic

namespace Base64

/-- The digit for a value below 64. -/
def digit (n : Nat) : Char :=
  if n < 26 then Char.ofNat (n + 65)
  else if n < 52 then Char.ofNat (n + 71)
  else if n < 62 then Char.ofNat (n - 4)
  else if n = 62 then '+' else '/'

def value (c : Char) : Option Nat :=
  if 65 ≤ c.toNat ∧ c.toNat ≤ 90 then some (c.toNat - 65)
  else if 97 ≤ c.toNat ∧ c.toNat ≤ 122 then some (c.toNat - 71)
  else if 48 ≤ c.toNat ∧ c.toNat ≤ 57 then some (c.toNat + 4)
  else if c = '+' then some 62
  else if c = '/' then some 63
  else none

/-- Three bytes make four digits; the last one or two bytes are padded. -/
def encode : List UInt8 → List Char
  | a :: b :: c :: rest =>
    let n := a.toNat * 65536 + b.toNat * 256 + c.toNat
    digit (n / 262144) :: digit (n / 4096 % 64) :: digit (n / 64 % 64) :: digit (n % 64) :: encode rest
  | [a, b] =>
    let n := a.toNat * 65536 + b.toNat * 256
    [digit (n / 262144), digit (n / 4096 % 64), digit (n / 64 % 64), '=']
  | [a] =>
    let n := a.toNat * 65536
    [digit (n / 262144), digit (n / 4096 % 64), '=', '=']
  | [] => []

def decode : List Char → Option (List UInt8)
  | [] => some []
  | p :: q :: r :: s :: rest => do
    let w ← value p
    let x ← value q
    if r = '=' then
      -- one byte is left, and nothing may follow
      if s = '=' ∧ rest = [] then return [UInt8.ofNat ((w * 64 + x) / 16)] else none
    else
      let y ← value r
      if s = '=' then
        let n := (w * 64 + x) * 64 + y
        if rest = [] then return [UInt8.ofNat (n / 1024), UInt8.ofNat (n / 4 % 256)] else none
      else
        let z ← value s
        let n := ((w * 64 + x) * 64 + y) * 64 + z
        let tail ← decode rest
        return UInt8.ofNat (n / 65536) :: UInt8.ofNat (n / 256 % 256) :: UInt8.ofNat (n % 256) :: tail
  | _ => none

theorem value_digit : ∀ n < 64, value (digit n) = some n := by decide

theorem digit_ne_pad : ∀ n < 64, digit n ≠ '=' := by decide

theorem length_encode : ∀ bytes : List UInt8, (encode bytes).length = (bytes.length + 2) / 3 * 4
  | [] => rfl
  | [_] => by simp [encode]
  | [_, _] => by simp [encode]
  | a :: b :: c :: rest => by
    have ih := length_encode rest
    simp only [encode, List.length_cons] at ih ⊢
    omega

theorem decode_encode : ∀ bytes : List UInt8, decode (encode bytes) = some bytes
  | [] => rfl
  | [a] => by
    have ha := a.toNat_lt
    have hw : a.toNat * 65536 / 262144 < 64 := by omega
    have hx : a.toNat * 65536 / 4096 % 64 < 64 := by omega
    have hback : (a.toNat * 65536 / 262144 * 64 + a.toNat * 65536 / 4096 % 64) / 16 = a.toNat := by omega
    simp only [encode, decode, value_digit _ hw, value_digit _ hx, Option.bind_eq_bind, Option.bind_some, hback,
      UInt8.ofNat_toNat]
    rfl
  | [a, b] => by
    have ha := a.toNat_lt
    have hb := b.toNat_lt
    have hw : (a.toNat * 65536 + b.toNat * 256) / 262144 < 64 := by omega
    have hx : (a.toNat * 65536 + b.toNat * 256) / 4096 % 64 < 64 := by omega
    have hy : (a.toNat * 65536 + b.toNat * 256) / 64 % 64 < 64 := by omega
    have hback : (((a.toNat * 65536 + b.toNat * 256) / 262144 * 64 + (a.toNat * 65536 + b.toNat * 256) / 4096 % 64) *
        64 + (a.toNat * 65536 + b.toNat * 256) / 64 % 64) = a.toNat * 1024 + b.toNat * 4 := by omega
    have hfirst : (a.toNat * 1024 + b.toNat * 4) / 1024 = a.toNat := by omega
    have hsecond : (a.toNat * 1024 + b.toNat * 4) / 4 % 256 = b.toNat := by omega
    simp only [encode, decode, value_digit _ hw, value_digit _ hx, value_digit _ hy, Option.bind_eq_bind,
      Option.bind_some, if_neg (digit_ne_pad _ hy), hback, hfirst, hsecond, UInt8.ofNat_toNat]
    rfl
  | a :: b :: c :: rest => by
    have ih := decode_encode rest
    have ha := a.toNat_lt
    have hb := b.toNat_lt
    have hc := c.toNat_lt
    simp only [encode]
    generalize hn : a.toNat * 65536 + b.toNat * 256 + c.toNat = n
    have hw : n / 262144 < 64 := by omega
    have hx : n / 4096 % 64 < 64 := by omega
    have hy : n / 64 % 64 < 64 := by omega
    have hz : n % 64 < 64 := by omega
    have hback : ((n / 262144 * 64 + n / 4096 % 64) * 64 + n / 64 % 64) * 64 + n % 64 = n := by omega
    have hfirst : n / 65536 = a.toNat := by omega
    have hsecond : n / 256 % 256 = b.toNat := by omega
    have hthird : n % 256 = c.toNat := by omega
    simp only [decode, value_digit _ hw, value_digit _ hx, value_digit _ hy, value_digit _ hz, Option.bind_eq_bind,
      Option.bind_some, if_neg (digit_ne_pad _ hy), if_neg (digit_ne_pad _ hz), hback, hfirst, hsecond, hthird,
      UInt8.ofNat_toNat, ih]
    rfl

end Base64
