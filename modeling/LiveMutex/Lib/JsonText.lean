/-
The texts of JSON: a value as it is written, with its white space and its escapes.

A string is written so that it stands for a text: a surrogate comes in a pair, the high
one first. `unescape` reads what stands between the quotes of a string, byte by byte, and
`unescape_text` tells that it reads the text the string stands for. It stands for the
string parser of the `serde_json` crate by its documented contract: the JSON escapes,
`\u` escapes with surrogates in pairs only, and no control characters.
-/
import Mathlib.Data.List.Basic

namespace JsonText

/-! ## Bytes of a text -/

/-- The text in UTF-8. -/
def bytes (text : List Char) : List UInt8 := text.flatMap String.utf8EncodeChar

@[simp] theorem bytes_nil : bytes [] = [] := rfl

@[simp] theorem bytes_append (a b : List Char) : bytes (a ++ b) = bytes a ++ bytes b := List.flatMap_append

theorem bytes_cons (c : Char) (a : List Char) : bytes (c :: a) = String.utf8EncodeChar c ++ bytes a :=
  List.flatMap_cons

theorem fromUTF8?_bytes (text : List Char) :
    String.fromUTF8? (bytes text).toByteArray = some (String.ofList text) :=
  dif_pos (ByteArray.IsValidUTF8.intro text rfl)

/-! ## Strings -/

structure HexDigit where
  value : Fin 16
  upper : Bool

def HexDigit.char (h : HexDigit) : Char :=
  Char.ofNat (if h.value.val < 10 then 48 + h.value else if h.upper then 55 + h.value else 87 + h.value)

/-- The four digits of a Unicode escape. -/
structure CodeUnit where
  first : HexDigit
  second : HexDigit
  third : HexDigit
  fourth : HexDigit

def CodeUnit.text (u : CodeUnit) : List Char := [u.first.char, u.second.char, u.third.char, u.fourth.char]

def CodeUnit.value (u : CodeUnit) : Nat :=
  ((u.first.value.val * 16 + u.second.value.val) * 16 + u.third.value.val) * 16 + u.fourth.value.val

def isHighSurrogate (n : Nat) : Prop := 0xD800 ≤ n ∧ n ≤ 0xDBFF

def isLowSurrogate (n : Nat) : Prop := 0xDC00 ≤ n ∧ n ≤ 0xDFFF

instance decidableIsHighSurrogate (n : Nat) : Decidable (isHighSurrogate n) :=
  inferInstanceAs (Decidable (_ ∧ _))

instance decidableIsLowSurrogate (n : Nat) : Decidable (isLowSurrogate n) :=
  inferInstanceAs (Decidable (_ ∧ _))

/-- The character of a pair of surrogates. -/
def ofSurrogates (high low : Nat) : Char :=
  Char.ofNat ((high - 0xD800) * 0x400 + (low - 0xDC00) + 0x10000)

/-- The escapes of one letter. -/
inductive ShortEscape where
  | quote | backslash | slash | backspace | formFeed | lineFeed | carriageReturn | tab
  deriving DecidableEq

def ShortEscape.letter : ShortEscape → Char
  | .quote => '\x22'
  | .backslash => '\x5c'
  | .slash => '/'
  | .backspace => 'b'
  | .formFeed => 'f'
  | .lineFeed => 'n'
  | .carriageReturn => 'r'
  | .tab => 't'

def ShortEscape.meaning : ShortEscape → Char
  | .quote => '\x22'
  | .backslash => '\x5c'
  | .slash => '/'
  | .backspace => '\x08'
  | .formFeed => '\x0c'
  | .lineFeed => '\n'
  | .carriageReturn => '\r'
  | .tab => '\t'

inductive StringItem where
  /-- a character that is no control character, quote (34) or backslash (92) -/
  | plain (c : Char) (h : 32 ≤ c.toNat ∧ c.toNat ≠ 34 ∧ c.toNat ≠ 92)
  | short (e : ShortEscape)
  | unit (u : CodeUnit)

def StringItem.text : StringItem → List Char
  | .plain c _ => [c]
  | .short e => ['\x5c', e.letter]
  | .unit u => '\x5c' :: 'u' :: u.text

def itemsText (items : List StringItem) : List Char := items.flatMap StringItem.text

/-- What a string stands for, if that is a text. -/
def decode : List StringItem → Option (List Char)
  | [] => some []
  | .plain c _ :: items => (decode items).map (c :: ·)
  | .short e :: items => (decode items).map (e.meaning :: ·)
  | .unit high :: .unit low :: items =>
    if isHighSurrogate high.value then
      if isLowSurrogate low.value then (decode items).map (ofSurrogates high.value low.value :: ·) else none
    else if isLowSurrogate high.value then none
    else (decode (.unit low :: items)).map (Char.ofNat high.value :: ·)
  | .unit u :: items =>
    if isHighSurrogate u.value ∨ isLowSurrogate u.value then none
    else (decode items).map (Char.ofNat u.value :: ·)

/-- A string that stands for a text. -/
structure StringLit where
  items : List StringItem
  chars : List Char
  decodes : decode items = some chars

def StringLit.text (s : StringLit) : List Char := '\x22' :: itemsText s.items ++ ['\x22']

def StringLit.value (s : StringLit) : String := String.ofList s.chars

/-! ## Numbers -/

abbrev Digits := { ds : List (Fin 10) // ds ≠ [] }

def digitChar (d : Fin 10) : Char := Char.ofNat (48 + d)

def Digits.text (ds : Digits) : List Char := ds.val.map digitChar

def digitsValue (ds : List (Fin 10)) : Nat := ds.foldl (fun n (d : Fin 10) => 10 * n + d.val) 0

inductive ExpSign where
  | none | plus | minus

structure Exponent where
  upper : Bool
  sign : ExpSign
  digits : Digits

def ExpSign.text : ExpSign → List Char
  | .none => []
  | .plus => ['+']
  | .minus => ['-']

def expText : Option Exponent → List Char
  | none => []
  | some e => (if e.upper then 'E' else 'e') :: e.sign.text ++ e.digits.text

def fracText : Option Digits → List Char
  | none => []
  | some ds => '.' :: ds.text

structure Number where
  negative : Bool
  int : Digits
  no_leading_zero : int.val.head? = some 0 → int.val.length = 1
  frac : Option Digits
  exp : Option Exponent

def Number.text (n : Number) : List Char :=
  (if n.negative then ['-'] else []) ++ n.int.text ++ fracText n.frac ++ expText n.exp

/-! ## Values -/

inductive WsChar where
  | space | lineFeed | carriageReturn | tab

def WsChar.char : WsChar → Char
  | .space => ' '
  | .lineFeed => '\n'
  | .carriageReturn => '\r'
  | .tab => '\t'

abbrev Ws := List WsChar

def Ws.text (ws : Ws) : List Char := ws.map WsChar.char

mutual

inductive Value where
  | null
  | boolean (b : Bool)
  | number (n : Number)
  | string (s : StringLit)
  | emptyArray (ws : Ws)
  | array (elements : Elements)
  | object (object : Object)

inductive Elements where
  | last (before : Ws) (value : Value) (after : Ws)
  | cons (before : Ws) (value : Value) (after : Ws) (more : Elements)

inductive Object where
  | empty (ws : Ws)
  | members (ms : Members)

inductive Members where
  | last (before : Ws) (name : StringLit) (afterName beforeValue : Ws) (value : Value) (after : Ws)
  | cons (before : Ws) (name : StringLit) (afterName beforeValue : Ws) (value : Value) (after : Ws) (more : Members)

end

mutual

def Value.text : Value → List Char
  | .null => ['n', 'u', 'l', 'l']
  | .boolean b => if b then ['t', 'r', 'u', 'e'] else ['f', 'a', 'l', 's', 'e']
  | .number n => n.text
  | .string s => s.text
  | .emptyArray ws => '[' :: Ws.text ws ++ [']']
  | .array elements => '[' :: elements.text ++ [']']
  | .object object => object.text

def Elements.text : Elements → List Char
  | .last before value after => Ws.text before ++ value.text ++ Ws.text after
  | .cons before value after more => Ws.text before ++ value.text ++ Ws.text after ++ ',' :: more.text

def Object.text : Object → List Char
  | .empty ws => '\x7b' :: Ws.text ws ++ ['\x7d']
  | .members ms => '\x7b' :: ms.text ++ ['\x7d']

def Members.text : Members → List Char
  | .last before name afterName beforeValue value after =>
    Ws.text before ++ name.text ++ Ws.text afterName ++ ':' :: Ws.text beforeValue ++ value.text ++ Ws.text after
  | .cons before name afterName beforeValue value after more =>
    Ws.text before ++ name.text ++ Ws.text afterName ++ ':' :: Ws.text beforeValue ++ value.text ++ Ws.text after ++
      ',' :: more.text

end

/-- The members of an object, in order. -/
def Members.toList : Members → List (StringLit × Value)
  | .last _ name _ _ value _ => [(name, value)]
  | .cons _ name _ _ value _ more => (name, value) :: more.toList

def Object.toList : Object → List (StringLit × Value)
  | .empty _ => []
  | .members ms => ms.toList

/-- The number an unsigned integer is: one with neither sign, fraction nor exponent. -/
def Value.unsigned? : Value → Option Nat
  | .number n => if n.negative = false ∧ n.frac.isNone ∧ n.exp.isNone then some (digitsValue n.int.val) else none
  | _ => none

/-! ## Reading a string -/

def hexValue? (b : UInt8) : Option Nat :=
  if 48 ≤ b.toNat ∧ b.toNat ≤ 57 then some (b.toNat - 48)
  else if 65 ≤ b.toNat ∧ b.toNat ≤ 70 then some (b.toNat - 55)
  else if 97 ≤ b.toNat ∧ b.toNat ≤ 102 then some (b.toNat - 87)
  else none

def hex4? (a b c d : UInt8) : Option Nat :=
  match hexValue? a, hexValue? b, hexValue? c, hexValue? d with
  | some a, some b, some c, some d => some (((a * 16 + b) * 16 + c) * 16 + d)
  | _, _, _, _ => none

/-- The byte that an escape of one letter stands for. -/
def shortValue? (b : UInt8) : Option UInt8 :=
  match b.toNat with
  | 34 => some 34
  | 92 => some 92
  | 47 => some 47
  | 98 => some 8
  | 102 => some 12
  | 110 => some 10
  | 114 => some 13
  | 116 => some 9
  | _ => none

/-- What stands between the quotes of a string, with its escapes resolved. -/
def unescape : List UInt8 → Option (List UInt8)
  | [] => some []
  | b :: rest =>
    if b = 92 then
      match rest with
      | [] => none
      | 117 :: h₁ :: h₂ :: h₃ :: h₄ :: rest =>
        match hex4? h₁ h₂ h₃ h₄ with
        | none => none
        | some n =>
          if isLowSurrogate n then none
          else if isHighSurrogate n then
            match rest with
            | 92 :: 117 :: g₁ :: g₂ :: g₃ :: g₄ :: rest =>
              match hex4? g₁ g₂ g₃ g₄ with
              | none => none
              | some m =>
                if isLowSurrogate m then (unescape rest).map (String.utf8EncodeChar (ofSurrogates n m) ++ ·)
                else none
            | _ => none
          else (unescape rest).map (String.utf8EncodeChar (Char.ofNat n) ++ ·)
      | e :: rest =>
        match shortValue? e with
        | none => none
        | some c => (unescape rest).map (c :: ·)
    else if b < 32 then none
    else (unescape rest).map (b :: ·)

/-! ### The bytes of the parts of a string -/

/-- A byte that a string holds as it is. -/
def Plain (b : UInt8) : Prop := 32 ≤ b.toNat ∧ b.toNat ≠ 34 ∧ b.toNat ≠ 92

theorem plain_utf8EncodeChar {c : Char} (h : 32 ≤ c.toNat ∧ c.toNat ≠ 34 ∧ c.toNat ≠ 92) :
    ∀ b ∈ String.utf8EncodeChar c, Plain b := by
  intro b hb
  have hv : c.val.toNat = c.toNat := rfl
  simp only [String.utf8EncodeChar, hv] at hb
  split at hb
  · rw [List.mem_singleton.1 hb, Plain, UInt8.toNat_ofNat']
    omega
  · -- every byte of a longer code is beyond ASCII
    have hhigh : ∀ n, 128 ≤ n → n < 256 → Plain (UInt8.ofNat n) := by
      intro n hlo hhi
      rw [Plain, UInt8.toNat_ofNat']
      omega
    split at hb
    · simp only [List.mem_cons, List.not_mem_nil, or_false] at hb
      rcases hb with rfl | rfl <;> exact hhigh _ (by omega) (by omega)
    · split at hb
      · simp only [List.mem_cons, List.not_mem_nil, or_false] at hb
        rcases hb with rfl | rfl | rfl <;> exact hhigh _ (by omega) (by omega)
      · simp only [List.mem_cons, List.not_mem_nil, or_false] at hb
        rcases hb with rfl | rfl | rfl | rfl <;> exact hhigh _ (by omega) (by omega)

def HexDigit.byte (h : HexDigit) : UInt8 :=
  UInt8.ofNat (if h.value.val < 10 then 48 + h.value else if h.upper then 55 + h.value else 87 + h.value)

theorem HexDigit.encode (h : HexDigit) : String.utf8EncodeChar h.char = [h.byte] := by
  obtain ⟨v, u⟩ := h
  revert v u
  decide

theorem HexDigit.hexValue?_byte (h : HexDigit) : hexValue? h.byte = some h.value.val := by
  obtain ⟨v, u⟩ := h
  revert v u
  decide

theorem HexDigit.plain_byte (h : HexDigit) : Plain h.byte := by
  obtain ⟨v, u⟩ := h
  revert v u
  unfold Plain
  decide

theorem CodeUnit.bytes_text (u : CodeUnit) :
    bytes u.text = [u.first.byte, u.second.byte, u.third.byte, u.fourth.byte] := by
  simp only [CodeUnit.text, bytes_cons, HexDigit.encode, bytes_nil, List.singleton_append]

theorem CodeUnit.hex4? (u : CodeUnit) :
    JsonText.hex4? u.first.byte u.second.byte u.third.byte u.fourth.byte = some u.value := by
  simp only [JsonText.hex4?, HexDigit.hexValue?_byte, CodeUnit.value]

theorem unescape_cons {b : UInt8} (hb : Plain b) (rest : List UInt8) :
    unescape (b :: rest) = (unescape rest).map (b :: ·) := by
  have hne : b ≠ 92 := fun hb92 => hb.2.2 (hb92 ▸ rfl)
  have hctl : ¬b < 32 := fun hlt => absurd (UInt8.lt_iff_toNat_lt.1 hlt) (Nat.not_lt.2 hb.1)
  rw [unescape.eq_def]
  exact (if_neg hne).trans (if_neg hctl)

theorem unescape_plain {bs : List UInt8} (h : ∀ b ∈ bs, Plain b) (rest : List UInt8) :
    unescape (bs ++ rest) = (unescape rest).map (bs ++ ·) := by
  induction bs with
  | nil => simp
  | cons b bs ih =>
    have hbs : ∀ b ∈ bs, Plain b := fun b hb => h b (List.mem_cons_of_mem _ hb)
    rw [List.cons_append, unescape_cons (h b List.mem_cons_self), ih hbs, Option.map_map]
    rfl

theorem unescape_short (e : ShortEscape) (rest : List UInt8) :
    unescape (92 :: String.utf8EncodeChar e.letter ++ rest) =
      (unescape rest).map (String.utf8EncodeChar e.meaning ++ ·) := by
  cases e <;> rfl

/-- The bytes of a Unicode escape. -/
def CodeUnit.escape (u : CodeUnit) : List UInt8 :=
  [92, 117, u.first.byte, u.second.byte, u.third.byte, u.fourth.byte]

theorem unescape_unit {u : CodeUnit} (hhigh : ¬isHighSurrogate u.value) (hlow : ¬isLowSurrogate u.value)
    (rest : List UInt8) :
    unescape (u.escape ++ rest) = (unescape rest).map (String.utf8EncodeChar (Char.ofNat u.value) ++ ·) := by
  rw [CodeUnit.escape, List.cons_append, unescape.eq_def]
  simp only [if_true, List.cons_append, List.nil_append, CodeUnit.hex4?, if_neg hhigh, if_neg hlow]

theorem unescape_surrogates {high low : CodeUnit} (hhigh : isHighSurrogate high.value)
    (hlow : isLowSurrogate low.value) (rest : List UInt8) :
    unescape (high.escape ++ (low.escape ++ rest)) =
      (unescape rest).map (String.utf8EncodeChar (ofSurrogates high.value low.value) ++ ·) := by
  have hnot : ¬isLowSurrogate high.value := by
    have := hhigh.2
    rw [isLowSurrogate]
    omega
  rw [CodeUnit.escape, List.cons_append, unescape.eq_def]
  simp only [if_true, List.cons_append, List.nil_append, CodeUnit.hex4?, if_pos hhigh, if_neg hnot, CodeUnit.escape,
    if_pos hlow]

theorem StringItem.bytes_text (item : StringItem) : bytes item.text =
    match item with
    | .plain c _ => String.utf8EncodeChar c
    | .short e => 92 :: String.utf8EncodeChar e.letter
    | .unit u => u.escape := by
  cases item with
  | plain c h => rw [StringItem.text, bytes_cons, bytes_nil, List.append_nil]
  | short e => rw [StringItem.text, bytes_cons, bytes_cons, bytes_nil, List.append_nil]; rfl
  | unit u => rw [StringItem.text, bytes_cons, bytes_cons, CodeUnit.bytes_text]; rfl

theorem bytes_itemsText_cons (item : StringItem) (items : List StringItem) :
    bytes (itemsText (item :: items)) = bytes item.text ++ bytes (itemsText items) := by
  rw [itemsText, List.flatMap_cons, bytes_append, itemsText]

/-- A character in front of what is read and of what it stands for. -/
theorem unescape_of_map {whole rest : List UInt8} {c : Char} {tail : Option (List Char)} {chars : List Char}
    (hwhole : unescape whole = (unescape rest).map (String.utf8EncodeChar c ++ ·))
    (htail : ∀ {cs}, tail = some cs → unescape rest = some (bytes cs)) (h : tail.map (c :: ·) = some chars) :
    unescape whole = some (bytes chars) := by
  obtain ⟨cs, hcs, rfl⟩ := Option.map_eq_some_iff.1 h
  rw [hwhole, htail hcs, Option.map_some, bytes_cons]

/-- **Reading a string gives the text it stands for.** -/
theorem unescape_text {items : List StringItem} {chars : List Char} (h : decode items = some chars) :
    unescape (bytes (itemsText items)) = some (bytes chars) := by
  fun_induction decode items generalizing chars with
  | case1 =>
    cases h
    rfl
  | case2 c hc items ih =>
    rw [bytes_itemsText_cons, StringItem.bytes_text]
    exact unescape_of_map (unescape_plain (plain_utf8EncodeChar hc) _) ih h
  | case3 e items ih =>
    rw [bytes_itemsText_cons, StringItem.bytes_text]
    exact unescape_of_map (unescape_short e _) ih h
  | case4 high low items hhigh hlow ih =>
    rw [bytes_itemsText_cons, bytes_itemsText_cons, StringItem.bytes_text, StringItem.bytes_text]
    exact unescape_of_map (unescape_surrogates hhigh hlow _) ih h
  | case5 => cases h
  | case6 => cases h
  | case7 high low items hhigh hlow ih =>
    rw [bytes_itemsText_cons, StringItem.bytes_text]
    exact unescape_of_map (unescape_unit hhigh hlow _) ih h
  | case8 => cases h
  | case9 u items _ hnot ih =>
    rw [bytes_itemsText_cons, StringItem.bytes_text]
    exact unescape_of_map (unescape_unit (fun hh => hnot (.inl hh)) (fun hl => hnot (.inr hl)) _) ih h

end JsonText
