/-
The protocol version a peer's frame asks for: before a frame is parsed, its bytes are
scanned for the member `minProtocolVersion` of the object it is.

The scanner's position is what is left of the bytes. `serde_json` reads a name that has
escapes in it (`JsonText.unescape`).

`topLevelRaftRpcMinProtocolVersion_agrees`: on the text of an object the scanner finds the
first member of that name, and nothing else.
-/
import LiveMutex.Lib.JsonText
import LiveMutex.Protocol
import LiveMutex.Raft.Store

namespace LiveMutex.Raft

open JsonText (bytes)

/-! ## The scanner -/

/-- `White_Space`, as `str::trim` has it. -/
def isWhitespace (c : Char) : Bool :=
  let n := c.toNat
  (9 ≤ n && n ≤ 13) || n = 0x20 || n = 0x85 || n = 0xA0 || n = 0x1680 || (0x2000 ≤ n && n ≤ 0x200A) || n = 0x2028 ||
    n = 0x2029 || n = 0x202F || n = 0x205F || n = 0x3000

def trim (text : List Char) : List Char :=
  ((text.dropWhile isWhitespace).reverse.dropWhile isWhitespace).reverse

def isJsonWs (byte : UInt8) : Bool := byte = 32 || byte = 10 || byte = 13 || byte = 9

def skipJsonWs (rest : List UInt8) : List UInt8 := rest.dropWhile isJsonWs

def isAsciiDigit (byte : UInt8) : Bool := 48 ≤ byte.toNat && byte.toNat ≤ 57

/-- The loop of `parse_json_object_key`: whether it saw an escape, what stands before the
closing quote (34), and what is left behind it. -/
def scanKey (escaped sawEscape : Bool) (raw : List UInt8) : List UInt8 → Option (Bool × List UInt8 × List UInt8)
  | [] => none
  | byte :: rest =>
    if escaped then scanKey false sawEscape (raw ++ [byte]) rest
    else if byte = 92 then scanKey true true (raw ++ [byte]) rest
    else if byte = 34 then some (sawEscape, raw, rest)
    else scanKey false sawEscape (raw ++ [byte]) rest

def parseJsonObjectKey : List UInt8 → Option (String × List UInt8)
  | [] => none
  | byte :: rest =>
    if byte ≠ 34 then none
    else
      match scanKey false false [] rest with
      | none => none
      | some (sawEscape, raw, rest) =>
        let key := if sawEscape then (JsonText.unescape raw).bind fun read => String.fromUTF8? read.toByteArray
          else String.fromUTF8? raw.toByteArray
        key.map (·, rest)

def raftRpcProtocolVersionNotU64 (field : String) : BrokerRaftError :=
  .rpc s!"raft RPC {field} must be an unsigned integer"

/-- `str::parse::<u64>` on digits. -/
def parseU64 (digits : List UInt8) : Option Nat :=
  let value := digits.foldl (fun n byte => 10 * n + (byte.toNat - 48)) 0
  if digits ≠ [] ∧ value ≤ u64Max then some value else none

def parseJsonU64FieldValue (rest : List UInt8) (field : String) : Except BrokerRaftError Nat :=
  let rest := skipJsonWs rest
  match rest.head? with
  | none => .error (raftRpcProtocolVersionNotU64 field)
  | some first =>
    -- a minus, a quote, an opening bracket, or the first letter of a literal
    if first = 45 || [34, 123, 91, 116, 102, 110].contains first then .error (raftRpcProtocolVersionNotU64 field)
    else if !isAsciiDigit first then .error (raftRpcProtocolVersionNotU64 field)
    else
      let digits := rest.takeWhile isAsciiDigit
      let rest := rest.dropWhile isAsciiDigit
      -- a fraction or an exponent
      if rest.head?.any [46, 101, 69].contains then .error (raftRpcProtocolVersionNotU64 field)
      else
        match parseU64 digits with
        | none => .error (raftRpcProtocolVersionNotU64 field)
        | some number =>
          if (skipJsonWs rest).head?.any fun byte => !([44, 125].contains byte) then
            .error (raftRpcProtocolVersionNotU64 field)
          else .ok number

/-- The loop of `skip_json_container`; what is left when it returns `true`. -/
def skipContainerLoop (depth : Nat) (inString escaped : Bool) : List UInt8 → Option (List UInt8)
  | [] => none
  | byte :: rest =>
    if inString then
      if escaped then skipContainerLoop depth true false rest
      else if byte = 92 then skipContainerLoop depth true true rest
      else if byte = 34 then skipContainerLoop depth false false rest
      else skipContainerLoop depth true false rest
    else if byte = 34 then skipContainerLoop depth true escaped rest
    else if byte = 123 || byte = 91 then skipContainerLoop (depth + 1) false escaped rest
    else if byte = 125 || byte = 93 then
      if depth = 0 then none
      else if depth - 1 = 0 then some rest
      else skipContainerLoop (depth - 1) false escaped rest
    else skipContainerLoop depth false escaped rest

def skipJsonContainer (rest : List UInt8) : Option (List UInt8) :=
  if rest.head?.any fun byte => byte = 123 || byte = 91 then skipContainerLoop 0 false false rest else none

/-- A byte of a number behind its first: a digit, a point, an `e` or a sign. -/
def isNumberByte (byte : UInt8) : Bool := isAsciiDigit byte || [46, 101, 69, 43, 45].contains byte

/-- `skip_json_value`; what is left when it returns `true`. -/
def skipJsonValue (rest : List UInt8) : Option (List UInt8) :=
  let rest := skipJsonWs rest
  match rest with
  | [] => none
  | first :: more =>
    if first = 34 then (parseJsonObjectKey rest).map (·.2)
    else if first = 123 || first = 91 then skipJsonContainer rest
    else if first = 45 || isAsciiDigit first then some (more.dropWhile isNumberByte)
    else if first = 116 && rest.take 4 = [116, 114, 117, 101] then some (rest.drop 4)
    else if first = 102 && rest.take 5 = [102, 97, 108, 115, 101] then some (rest.drop 5)
    else if first = 110 && rest.take 4 = [110, 117, 108, 108] then some (rest.drop 4)
    else none

/-- The loop over the members. Each turn moves on, so there are no more turns than bytes. -/
def scanMembers (field : String) : Nat → List UInt8 → Except BrokerRaftError (Option Nat)
  | 0, _ => .ok none
  | turns + 1, rest =>
    let rest := skipJsonWs rest
    if rest.isEmpty || rest.head? = some 125 then .ok none
    else
      let rest := if rest.head? = some 44 then skipJsonWs rest.tail else rest
      match parseJsonObjectKey rest with
      | none => .ok none
      | some (key, rest) =>
        let rest := skipJsonWs rest
        if rest.head? ≠ some 58 then .ok none
        else
          let rest := skipJsonWs rest.tail
          if key = field then (parseJsonU64FieldValue rest field).map some
          else
            match skipJsonValue rest with
            | none => .ok none
            | some rest =>
              let rest := skipJsonWs rest
              if rest.head? = some 44 then scanMembers field turns rest else .ok none

def topLevelRaftRpcMinProtocolVersion (line field : String) : Except BrokerRaftError (Option Nat) :=
  let text := bytes (trim line.toList)
  if text.head? ≠ some 123 then .ok none else scanMembers field text.length text.tail

def raftRpcProtocolVersion : Nat := 1

def raftRpcMinProtocolVersionField : String := "minProtocolVersion"

/-- `validate_raft_rpc_protocol_minimum_counted` but for its counter. -/
def validateRaftRpcProtocolMinimum (line : String) : Except BrokerRaftError Unit :=
  (topLevelRaftRpcMinProtocolVersion line raftRpcMinProtocolVersionField).bind fun found =>
    match found with
    | none => .ok ()
    | some minProtocolVersion =>
      if minProtocolVersion ≤ raftRpcProtocolVersion then .ok ()
      else .error (.rpc (s!"raft RPC peer requires protocol version {minProtocolVersion}, but this " ++
        s!"binary supports {raftRpcProtocolVersion}"))

/-! ## What the scanner passes over -/

open JsonText (Ws Value Elements Object Members StringLit StringItem Number Digits itemsText)

section Bytes

/-- Bytes that mean nothing to the loop over a container. -/
def Neutral (b : UInt8) : Prop := b ≠ 34 ∧ b ≠ 123 ∧ b ≠ 91 ∧ b ≠ 125 ∧ b ≠ 93

instance decidableNeutral (b : UInt8) : Decidable (Neutral b) := inferInstanceAs (Decidable (_ ∧ _))

theorem neutral_of_all {l : List UInt8} (h : (l.all fun b => decide (Neutral b)) = true) : ∀ b ∈ l, Neutral b :=
  fun b hb => of_decide_eq_true (List.all_eq_true.1 h b hb)

theorem bytes_wsText (ws : Ws) : ∀ b ∈ bytes (Ws.text ws), isJsonWs b = true ∧ Neutral b := by
  induction ws with
  | nil => intro b hb; cases hb
  | cons c ws ih =>
    intro b hb
    rw [Ws.text, List.map_cons, JsonText.bytes_cons, List.mem_append] at hb
    rcases hb with hb | hb
    · have hall : ((String.utf8EncodeChar c.char).all fun b => isJsonWs b && decide (Neutral b)) = true := by
        cases c <;> decide
      simpa using List.all_eq_true.1 hall b hb
    · exact ih b hb

def digitByte (d : Fin 10) : UInt8 := UInt8.ofNat (48 + d)

theorem utf8EncodeChar_digitChar (d : Fin 10) : String.utf8EncodeChar (JsonText.digitChar d) = [digitByte d] := by
  revert d
  decide

theorem isAsciiDigit_digitByte (d : Fin 10) : isAsciiDigit (digitByte d) = true := by
  revert d
  decide

theorem toNat_digitByte (d : Fin 10) : (digitByte d).toNat = 48 + d := by
  revert d
  decide

theorem bytes_digits (ds : Digits) : bytes ds.text = ds.val.map digitByte := by
  rw [JsonText.Digits.text]
  induction ds.val with
  | nil => rfl
  | cons d l ih => rw [List.map_cons, JsonText.bytes_cons, utf8EncodeChar_digitChar, ih]; rfl

def fracBytes : Option Digits → List UInt8
  | none => []
  | some ds => 46 :: ds.val.map digitByte

def expSignBytes : JsonText.ExpSign → List UInt8
  | .none => []
  | .plus => [43]
  | .minus => [45]

def expBytes : Option JsonText.Exponent → List UInt8
  | none => []
  | some e => (if e.upper then 69 else 101) :: (expSignBytes e.sign ++ e.digits.val.map digitByte)

theorem bytes_fracText (frac : Option Digits) : bytes (JsonText.fracText frac) = fracBytes frac := by
  cases frac with
  | none => rfl
  | some ds =>
    rw [JsonText.fracText, JsonText.bytes_cons, bytes_digits]
    rfl

theorem bytes_expText (exp : Option JsonText.Exponent) : bytes (JsonText.expText exp) = expBytes exp := by
  cases exp with
  | none => rfl
  | some e =>
    obtain ⟨upper, sign, digits⟩ := e
    rw [JsonText.expText, List.cons_append, JsonText.bytes_cons, JsonText.bytes_append, bytes_digits]
    cases upper <;> cases sign <;> rfl

theorem bytes_number (n : Number) : bytes n.text =
    (if n.negative then [45] else []) ++ n.int.val.map digitByte ++ fracBytes n.frac ++ expBytes n.exp := by
  have hsign : bytes (if n.negative then ['-'] else []) = if n.negative then [45] else [] := by
    cases n.negative <;> rfl
  rw [Number.text, JsonText.bytes_append, JsonText.bytes_append, JsonText.bytes_append, hsign, bytes_digits,
    bytes_fracText, bytes_expText]

theorem all_digits (ds : List (Fin 10)) : (ds.map digitByte).all isAsciiDigit = true := by
  rw [List.all_map, List.all_eq_true]
  intro d _
  exact isAsciiDigit_digitByte d

theorem all_isNumberByte_digits (ds : List (Fin 10)) : (ds.map digitByte).all isNumberByte = true := by
  rw [List.all_map, List.all_eq_true]
  intro d _
  rw [Function.comp_apply, isNumberByte, isAsciiDigit_digitByte, Bool.true_or]

theorem all_fracBytes (frac : Option Digits) : (fracBytes frac).all isNumberByte = true := by
  cases frac with
  | none => rfl
  | some ds => rw [fracBytes, List.all_cons, all_isNumberByte_digits]; rfl

theorem all_expBytes (exp : Option JsonText.Exponent) : (expBytes exp).all isNumberByte = true := by
  cases exp with
  | none => rfl
  | some e =>
    obtain ⟨upper, sign, digits⟩ := e
    rw [expBytes, List.all_cons, List.all_append, all_isNumberByte_digits]
    cases upper <;> cases sign <;> rfl

theorem all_bytes_number (n : Number) : (bytes n.text).all isNumberByte = true := by
  rw [bytes_number, List.all_append, List.all_append, List.all_append, all_isNumberByte_digits, all_fracBytes,
    all_expBytes]
  cases n.negative <;> rfl

theorem neutral_of_isNumberByte {b : UInt8} (h : isNumberByte b = true) : Neutral b := by
  refine ⟨?_, ?_, ?_, ?_, ?_⟩ <;> rintro rfl <;> exact absurd h (by decide)

/-- The first byte of a number, and that it is negative if that is a minus. -/
theorem bytes_number_cons (n : Number) : ∃ b more, bytes n.text = b :: more ∧ (b = 45 ∨ isAsciiDigit b = true) := by
  obtain ⟨d, ds, hds⟩ := List.exists_cons_of_ne_nil n.int.property
  rw [bytes_number, hds, List.map_cons]
  cases n.negative with
  | true => exact ⟨45, _, rfl, .inl rfl⟩
  | false => exact ⟨digitByte d, _, rfl, .inr (isAsciiDigit_digitByte d)⟩

end Bytes

/-! ### White space -/

theorem skipJsonWs_text (ws : Ws) {rest : List UInt8} (h : ∀ b ∈ rest.head?, isJsonWs b = false) :
    skipJsonWs (bytes (Ws.text ws) ++ rest) = rest := by
  rw [skipJsonWs, List.dropWhile_append_of_pos fun b hb => (bytes_wsText ws b hb).1]
  cases rest with
  | nil => rfl
  | cons b rest => rw [List.dropWhile_cons_of_neg (by rw [h b rfl]; exact Bool.false_ne_true)]

theorem skipJsonWs_cons {b : UInt8} (h : isJsonWs b = false) (rest : List UInt8) :
    skipJsonWs (b :: rest) = b :: rest :=
  List.dropWhile_cons_of_neg (by rw [h]; exact Bool.false_ne_true)

/-! ### Strings -/

def isEscape : StringItem → Bool
  | .plain _ _ => false
  | .short _ | .unit _ => true

/-- An item of a string is a run of plain bytes, or a backslash, a byte and a run of plain ones. -/
theorem bytes_item (item : StringItem) : ∃ bs : List UInt8, (∀ b ∈ bs, JsonText.Plain b) ∧
    ((isEscape item = false ∧ bytes item.text = bs) ∨
      (isEscape item = true ∧ ∃ b, bytes item.text = 92 :: b :: bs)) := by
  cases item with
  | plain c h => exact ⟨_, JsonText.plain_utf8EncodeChar h, .inl ⟨rfl, JsonText.StringItem.bytes_text _⟩⟩
  | short e =>
    refine ⟨[], fun b hb => absurd hb List.not_mem_nil, .inr ⟨rfl, ?_⟩⟩
    cases e <;> exact ⟨_, rfl⟩
  | unit u =>
    refine ⟨[u.first.byte, u.second.byte, u.third.byte, u.fourth.byte], ?_, .inr ⟨rfl, 117, ?_⟩⟩
    · intro b hb
      simp only [List.mem_cons, List.not_mem_nil, or_false] at hb
      rcases hb with rfl | rfl | rfl | rfl <;> exact JsonText.HexDigit.plain_byte _
    · exact JsonText.StringItem.bytes_text _

theorem scanKey_plain {bs : List UInt8} (h : ∀ b ∈ bs, JsonText.Plain b) (saw : Bool) (raw rest : List UInt8) :
    scanKey false saw raw (bs ++ rest) = scanKey false saw (raw ++ bs) rest := by
  induction bs generalizing raw with
  | nil => rw [List.nil_append, List.append_nil]
  | cons b bs ih =>
    have hb := h b List.mem_cons_self
    have hslash : b ≠ 92 := fun hb92 => hb.2.2 (hb92 ▸ rfl)
    have hquote : b ≠ 34 := fun hb34 => hb.2.1 (hb34 ▸ rfl)
    rw [List.cons_append, scanKey, if_neg Bool.false_ne_true, if_neg hslash, if_neg hquote,
      ih fun b hb => h b (List.mem_cons_of_mem _ hb), List.append_assoc, List.singleton_append]

theorem scanKey_item (item : StringItem) (saw : Bool) (raw rest : List UInt8) :
    scanKey false saw raw (bytes item.text ++ rest) =
      scanKey false (saw || isEscape item) (raw ++ bytes item.text) rest := by
  obtain ⟨bs, hbs, ⟨hesc, htext⟩ | ⟨hesc, b, htext⟩⟩ := bytes_item item
  · rw [htext, hesc, Bool.or_false, scanKey_plain hbs]
  · rw [htext, hesc, Bool.or_true, List.cons_append, List.cons_append, scanKey, if_neg Bool.false_ne_true, if_pos rfl,
      scanKey, if_pos rfl, scanKey_plain hbs]
    simp only [List.append_assoc, List.cons_append, List.nil_append]

theorem scanKey_items (items : List StringItem) (saw : Bool) (raw rest : List UInt8) :
    scanKey false saw raw (bytes (itemsText items) ++ rest) =
      scanKey false (saw || items.any isEscape) (raw ++ bytes (itemsText items)) rest := by
  induction items generalizing saw raw with
  | nil =>
    rw [List.any_nil, Bool.or_false]
    show scanKey false saw raw ([] ++ rest) = scanKey false saw (raw ++ []) rest
    rw [List.nil_append, List.append_nil]
  | cons item items ih =>
    rw [JsonText.bytes_itemsText_cons, List.append_assoc, scanKey_item, ih, List.any_cons, Bool.or_assoc,
      List.append_assoc]

theorem decode_of_no_escape {items : List StringItem} {chars : List Char} (h : items.any isEscape = false)
    (hdecode : JsonText.decode items = some chars) : itemsText items = chars := by
  induction items generalizing chars with
  | nil =>
    cases hdecode
    rfl
  | cons item items ih =>
    rw [List.any_cons, Bool.or_eq_false_iff] at h
    cases item with
    | plain c hc =>
      obtain ⟨cs, hcs, rfl⟩ := Option.map_eq_some_iff.1 hdecode
      show c :: itemsText items = c :: cs
      rw [ih h.2 hcs]
    | short e => cases h.1
    | unit u => cases h.1

theorem bytes_stringLit (s : StringLit) : bytes s.text = 34 :: (bytes (itemsText s.items) ++ [34]) := by
  rw [StringLit.text, List.cons_append, JsonText.bytes_cons, JsonText.bytes_append]
  rfl

/-- A string is read as what it stands for, with or without escapes. -/
theorem parseJsonObjectKey_text (s : StringLit) (rest : List UInt8) :
    parseJsonObjectKey (bytes s.text ++ rest) = some (s.value, rest) := by
  have hscan : scanKey false false [] (bytes (itemsText s.items) ++ 34 :: rest) =
      some (s.items.any isEscape, bytes (itemsText s.items), rest) := by
    rw [scanKey_items, scanKey, if_neg Bool.false_ne_true, if_neg (by decide), if_pos rfl, Bool.false_or,
      List.nil_append]
  rw [bytes_stringLit, List.cons_append, List.append_assoc, List.singleton_append, parseJsonObjectKey,
    if_neg (not_not_intro rfl), hscan]
  cases hesc : s.items.any isEscape with
  | true =>
    simp only [if_true, JsonText.unescape_text s.decodes, Option.bind_some, JsonText.fromUTF8?_bytes, Option.map_some]
    rfl
  | false =>
    simp only [Bool.false_eq_true, if_false, JsonText.fromUTF8?_bytes, Option.map_some,
      decode_of_no_escape hesc s.decodes]
    rfl

/-! ### Containers -/

theorem loop_neutral {bs : List UInt8} (h : ∀ b ∈ bs, Neutral b) (depth : Nat) (rest : List UInt8) :
    skipContainerLoop depth false false (bs ++ rest) = skipContainerLoop depth false false rest := by
  induction bs with
  | nil => rfl
  | cons b bs ih =>
    obtain ⟨hquote, hbrace, hbracket, hcloseBrace, hcloseBracket⟩ := h b List.mem_cons_self
    rw [List.cons_append, skipContainerLoop, if_neg Bool.false_ne_true, if_neg hquote,
      if_neg (by simp [hbrace, hbracket]), if_neg (by simp [hcloseBrace, hcloseBracket]),
      ih fun b hb => h b (List.mem_cons_of_mem _ hb)]

theorem loop_plain {bs : List UInt8} (h : ∀ b ∈ bs, JsonText.Plain b) (depth : Nat) (rest : List UInt8) :
    skipContainerLoop depth true false (bs ++ rest) = skipContainerLoop depth true false rest := by
  induction bs with
  | nil => rfl
  | cons b bs ih =>
    have hb := h b List.mem_cons_self
    have hslash : b ≠ 92 := fun hb92 => hb.2.2 (hb92 ▸ rfl)
    have hquote : b ≠ 34 := fun hb34 => hb.2.1 (hb34 ▸ rfl)
    rw [List.cons_append, skipContainerLoop, if_pos rfl, if_neg Bool.false_ne_true, if_neg hslash, if_neg hquote,
      ih fun b hb => h b (List.mem_cons_of_mem _ hb)]

theorem loop_items (items : List StringItem) (depth : Nat) (rest : List UInt8) :
    skipContainerLoop depth true false (bytes (itemsText items) ++ rest) =
      skipContainerLoop depth true false rest := by
  induction items with
  | nil => rfl
  | cons item items ih =>
    rw [JsonText.bytes_itemsText_cons, List.append_assoc]
    obtain ⟨bs, hbs, ⟨-, htext⟩ | ⟨-, b, htext⟩⟩ := bytes_item item
    · rw [htext, loop_plain hbs, ih]
    · rw [htext, List.cons_append, List.cons_append, skipContainerLoop, if_pos rfl, if_neg Bool.false_ne_true,
        if_pos rfl, skipContainerLoop, if_pos rfl, if_pos rfl, loop_plain hbs, ih]

theorem loop_string (s : StringLit) (depth : Nat) (rest : List UInt8) :
    skipContainerLoop depth false false (bytes s.text ++ rest) = skipContainerLoop depth false false rest := by
  rw [bytes_stringLit, List.cons_append, skipContainerLoop, if_neg Bool.false_ne_true, if_pos rfl, List.append_assoc,
    loop_items, List.singleton_append, skipContainerLoop, if_pos rfl, if_neg Bool.false_ne_true, if_neg (by decide),
    if_pos rfl]

/-- Inside a container the loop passes over a byte in brackets. -/
theorem loop_brackets {opening closing : UInt8} (hopen : opening = 123 ∨ opening = 91)
    (hclose : closing = 125 ∨ closing = 93) {inner : List UInt8} {depth : Nat}
    (hinner : ∀ rest, skipContainerLoop (depth + 2) false false (inner ++ rest) =
      skipContainerLoop (depth + 2) false false rest) (rest : List UInt8) :
    skipContainerLoop (depth + 1) false false (opening :: inner ++ [closing] ++ rest) =
      skipContainerLoop (depth + 1) false false rest := by
  rw [List.append_assoc, List.cons_append]
  have hdown : skipContainerLoop (depth + 2) false false ([closing] ++ rest) =
      skipContainerLoop (depth + 1) false false rest := by
    rcases hclose with rfl | rfl <;> rfl
  have hup : ∀ l, skipContainerLoop (depth + 1) false false (opening :: l) =
      skipContainerLoop (depth + 2) false false l := by
    intro l
    rcases hopen with rfl | rfl <;> rfl
  rw [hup, hinner, hdown]

theorem loop_ws (ws : Ws) (depth : Nat) (rest : List UInt8) :
    skipContainerLoop depth false false (bytes (Ws.text ws) ++ rest) = skipContainerLoop depth false false rest :=
  loop_neutral (fun b hb => (bytes_wsText ws b hb).2) depth rest

theorem bytes_array (l : List Char) : bytes ('[' :: l ++ [']']) = 91 :: bytes l ++ [93] := by
  rw [List.cons_append, JsonText.bytes_cons, JsonText.bytes_append]
  rfl

theorem bytes_object (l : List Char) : bytes ('\x7b' :: l ++ ['\x7d']) = 123 :: bytes l ++ [125] := by
  rw [List.cons_append, JsonText.bytes_cons, JsonText.bytes_append]
  rfl

theorem bytes_comma (l : List Char) : bytes (',' :: l) = 44 :: bytes l := by
  rw [JsonText.bytes_cons]
  rfl

theorem bytes_colon (l : List Char) : bytes (':' :: l) = 58 :: bytes l := by
  rw [JsonText.bytes_cons]
  rfl

theorem loop_colon (depth : Nat) (rest : List UInt8) :
    skipContainerLoop depth false false (58 :: rest) = skipContainerLoop depth false false rest := rfl

mutual

/-- **Inside a container the loop passes over a value**, whatever it holds. -/
theorem loop_value (v : Value) (depth : Nat) (rest : List UInt8) :
    skipContainerLoop (depth + 1) false false (bytes v.text ++ rest) =
      skipContainerLoop (depth + 1) false false rest := by
  cases v with
  | null =>
    refine loop_neutral (neutral_of_all ?_) _ rest
    decide
  | boolean b =>
    refine loop_neutral (neutral_of_all ?_) _ rest
    cases b <;> decide
  | number n =>
    refine loop_neutral (fun b hb => neutral_of_isNumberByte ?_) _ rest
    exact List.all_eq_true.1 (all_bytes_number n) b hb
  | string s => exact loop_string s _ rest
  | emptyArray ws =>
    rw [Value.text, bytes_array]
    exact loop_brackets (.inr rfl) (.inr rfl) (loop_ws ws _) rest
  | array elements =>
    rw [Value.text, bytes_array]
    exact loop_brackets (.inr rfl) (.inr rfl) (loop_elements elements _) rest
  | object o =>
    rw [Value.text]
    exact loop_object o depth rest

theorem loop_elements (es : Elements) (depth : Nat) (rest : List UInt8) :
    skipContainerLoop (depth + 1) false false (bytes es.text ++ rest) =
      skipContainerLoop (depth + 1) false false rest := by
  cases es with
  | last before value after =>
    simp only [Elements.text, JsonText.bytes_append, List.append_assoc]
    rw [loop_ws, loop_value value, loop_ws]
  | cons before value after more =>
    simp only [Elements.text, JsonText.bytes_append, List.append_assoc, bytes_comma]
    rw [loop_ws, loop_value value, loop_ws]
    exact loop_elements more depth rest

theorem loop_object (o : Object) (depth : Nat) (rest : List UInt8) :
    skipContainerLoop (depth + 1) false false (bytes o.text ++ rest) =
      skipContainerLoop (depth + 1) false false rest := by
  cases o with
  | empty ws =>
    rw [Object.text, bytes_object]
    exact loop_brackets (.inl rfl) (.inl rfl) (loop_ws ws _) rest
  | members ms =>
    rw [Object.text, bytes_object]
    exact loop_brackets (.inl rfl) (.inl rfl) (loop_members ms _) rest

theorem loop_members (ms : Members) (depth : Nat) (rest : List UInt8) :
    skipContainerLoop (depth + 1) false false (bytes ms.text ++ rest) =
      skipContainerLoop (depth + 1) false false rest := by
  cases ms with
  | last before name afterName beforeValue value after =>
    simp only [Members.text, JsonText.bytes_append, List.append_assoc, bytes_colon, List.cons_append]
    rw [loop_ws, loop_string, loop_ws, loop_colon, loop_ws, loop_value value, loop_ws]
  | cons before name afterName beforeValue value after more =>
    simp only [Members.text, JsonText.bytes_append, List.append_assoc, bytes_colon, bytes_comma, List.cons_append]
    rw [loop_ws, loop_string, loop_ws, loop_colon, loop_ws, loop_value value, loop_ws]
    exact loop_members more depth rest

end

/-! ### Values -/

/-- What may follow a number: something that is no part of it. -/
def EndsNumber (rest : List UInt8) : Prop := ∀ b ∈ rest.head?, isNumberByte b = false

theorem skipContainerLoop_brackets {opening closing : UInt8} (hopen : opening = 123 ∨ opening = 91)
    (hclose : closing = 125 ∨ closing = 93) {inner : List UInt8}
    (hinner : ∀ rest, skipContainerLoop 1 false false (inner ++ rest) = skipContainerLoop 1 false false rest)
    (rest : List UInt8) :
    skipJsonContainer (opening :: inner ++ [closing] ++ rest) = some rest := by
  have hdown : skipContainerLoop 1 false false ([closing] ++ rest) = some rest := by
    rcases hclose with rfl | rfl <;> rfl
  have hup : skipJsonContainer (opening :: inner ++ [closing] ++ rest) =
      skipContainerLoop 1 false false (inner ++ ([closing] ++ rest)) := by
    rw [List.append_assoc, List.cons_append]
    rcases hopen with rfl | rfl <;> rfl
  rw [hup, hinner, hdown]

theorem skipJsonContainer_object (o : Object) (rest : List UInt8) :
    skipJsonContainer (bytes o.text ++ rest) = some rest := by
  cases o with
  | empty ws =>
    rw [Object.text, bytes_object]
    exact skipContainerLoop_brackets (.inl rfl) (.inl rfl) (loop_ws ws 1) rest
  | members ms =>
    rw [Object.text, bytes_object]
    exact skipContainerLoop_brackets (.inl rfl) (.inl rfl) (loop_members ms 0) rest

theorem skipJsonValue_string (more : List UInt8) :
    skipJsonValue (34 :: more) = (parseJsonObjectKey (34 :: more)).map (·.2) := rfl

theorem isJsonWs_of_isNumberByte {b : UInt8} (h : isNumberByte b = true) : isJsonWs b = false := by
  by_contra hws
  rw [Bool.not_eq_false, isJsonWs] at hws
  simp only [Bool.or_eq_true, decide_eq_true_eq] at hws
  rcases hws with ((rfl | rfl) | rfl) | rfl <;> exact absurd h (by decide)

theorem skipJsonValue_number {first : UInt8} (more : List UInt8) (h : first = 45 ∨ isAsciiDigit first = true) :
    skipJsonValue (first :: more) = some (more.dropWhile isNumberByte) := by
  have hnumber : isNumberByte first = true := by
    rcases h with rfl | h
    · decide
    · rw [isNumberByte, h, Bool.true_or]
  obtain ⟨hquote, hbrace, hbracket, -, -⟩ := neutral_of_isNumberByte hnumber
  have hfirst : (first = 45 || isAsciiDigit first) = true := by
    rwa [Bool.or_eq_true, decide_eq_true_eq]
  rw [skipJsonValue, skipJsonWs_cons (isJsonWs_of_isNumberByte hnumber)]
  simp only [hquote, hbrace, hbracket, decide_false, Bool.or_false, Bool.false_eq_true, if_false, hfirst, if_true]

/-- Where the container starts, the value is skipped as one. -/
theorem skipJsonValue_container {first : UInt8} {more : List UInt8} (h : first = 123 ∨ first = 91) :
    skipJsonValue (first :: more) = skipJsonContainer (first :: more) := by
  rcases h with rfl | rfl <;> rfl

theorem object_cons (o : Object) : ∃ more, bytes o.text = 123 :: more := by
  cases o with
  | empty ws => exact ⟨_, (bytes_object _).trans (List.cons_append ..)⟩
  | members ms => exact ⟨_, (bytes_object _).trans (List.cons_append ..)⟩

/-- **A value is skipped**, and nothing behind it. -/
theorem skipJsonValue_text (v : Value) {rest : List UInt8} (hrest : EndsNumber rest) :
    skipJsonValue (bytes v.text ++ rest) = some rest := by
  cases v with
  | null => rfl
  | boolean b => cases b <;> rfl
  | number n =>
    obtain ⟨first, more, hbytes, hfirst⟩ := bytes_number_cons n
    have hall := all_bytes_number n
    rw [Value.text]
    rw [hbytes, List.all_cons, Bool.and_eq_true] at hall
    rw [hbytes, List.cons_append, skipJsonValue_number _ hfirst,
      List.dropWhile_append_of_pos (List.all_eq_true.1 hall.2)]
    cases rest with
    | nil => rfl
    | cons b rest => rw [List.dropWhile_cons_of_neg (by rw [hrest b rfl]; exact Bool.false_ne_true)]
  | string s =>
    have hkey := parseJsonObjectKey_text s rest
    rw [Value.text]
    rw [bytes_stringLit, List.cons_append] at hkey ⊢
    rw [skipJsonValue_string, hkey, Option.map_some]
  | emptyArray ws =>
    rw [Value.text, bytes_array]
    exact skipContainerLoop_brackets (.inr rfl) (.inr rfl) (loop_ws ws 1) rest
  | array elements =>
    rw [Value.text, bytes_array]
    exact skipContainerLoop_brackets (.inr rfl) (.inr rfl) (loop_elements elements 0) rest
  | object o =>
    obtain ⟨more, hmore⟩ := object_cons o
    have hskip := skipJsonContainer_object o rest
    rw [Value.text]
    rw [hmore, List.cons_append] at hskip ⊢
    rw [skipJsonValue_container (.inl rfl), hskip]

/-! ### The version -/

/-- What follows the value of a member: white space, and a comma or the end of the object. -/
def EndsMember (rest : List UInt8) : Prop :=
  ∃ (ws : Ws) (c : UInt8) (tail : List UInt8), rest = bytes (Ws.text ws) ++ c :: tail ∧ (c = 44 ∨ c = 125)

theorem EndsMember.skip {rest : List UInt8} (h : EndsMember rest) :
    ∃ c tail, skipJsonWs rest = c :: tail ∧ (c = 44 ∨ c = 125) := by
  obtain ⟨ws, c, tail, rfl, hc⟩ := h
  refine ⟨c, tail, skipJsonWs_text ws ?_, hc⟩
  intro b hb
  cases hb
  rcases hc with rfl | rfl <;> rfl

theorem EndsMember.endsNumber {rest : List UInt8} (h : EndsMember rest) : EndsNumber rest := by
  obtain ⟨ws, c, tail, rfl, hc⟩ := h
  intro b hb
  cases ws with
  | nil =>
    cases hb
    rcases hc with rfl | rfl <;> rfl
  | cons w ws =>
    cases w <;> cases hb <;> rfl

theorem parseU64_digits (ds : Digits) : parseU64 (ds.val.map digitByte) =
    if JsonText.digitsValue ds.val ≤ u64Max then some (JsonText.digitsValue ds.val) else none := by
  have hvalue : ∀ (l : List (Fin 10)) (n : Nat),
      (l.map digitByte).foldl (fun n byte => 10 * n + (byte.toNat - 48)) n =
        l.foldl (fun n (d : Fin 10) => 10 * n + d.val) n := by
    intro l
    induction l with
    | nil => exact fun n => rfl
    | cons d l ih =>
      intro n
      rw [List.map_cons, List.foldl_cons, List.foldl_cons, ih, toNat_digitByte, Nat.add_sub_cancel_left]
  have hne : ds.val.map digitByte ≠ [] := fun h => ds.property (List.map_eq_nil_iff.1 h)
  have hwhole : (ds.val.map digitByte).foldl (fun n byte => 10 * n + (byte.toNat - 48)) 0 =
      JsonText.digitsValue ds.val := hvalue ds.val 0
  rw [parseU64, hwhole]
  by_cases hfits : JsonText.digitsValue ds.val ≤ u64Max
  · rw [if_pos hfits]
    exact if_pos ⟨hne, hfits⟩
  · rw [if_neg hfits]
    exact if_neg fun h => hfits h.2

/-- What the scanner is to say of the value it finds. -/
def fieldVerdict (field : String) (v : Value) : Except BrokerRaftError Nat :=
  match v.unsigned? with
  | some n => if n ≤ u64Max then .ok n else .error (raftRpcProtocolVersionNotU64 field)
  | none => .error (raftRpcProtocolVersionNotU64 field)

theorem fieldVerdict_eq_ok (field : String) (v : Value) (n : Nat) :
    fieldVerdict field v = .ok n ↔ v.unsigned? = some n ∧ n < 2 ^ 64 := by
  rw [fieldVerdict]
  cases v.unsigned? with
  | none => simp
  | some m =>
    by_cases hfits : m ≤ u64Max
    · simp only [if_pos hfits, Except.ok.injEq, Option.some.injEq]
      rw [u64Max] at hfits
      omega
    · simp only [if_neg hfits, reduceCtorEq, Option.some.injEq, false_iff, not_and]
      rw [u64Max] at hfits
      omega

/-- A value that starts with a quote, a bracket or a letter is no number. -/
theorem parseJsonU64FieldValue_other {first : UInt8} (more : List UInt8) (field : String)
    (h : first ∈ [34, 123, 91, 116, 102, 110]) :
    parseJsonU64FieldValue (first :: more) field = .error (raftRpcProtocolVersionNotU64 field) := by
  simp only [List.mem_cons, List.not_mem_nil, or_false] at h
  rcases h with rfl | rfl | rfl | rfl | rfl | rfl <;> rfl

theorem digitByte_starts_number (d : Fin 10) :
    (digitByte d = 45 || [34, 123, 91, 116, 102, 110].contains (digitByte d)) = false := by
  revert d
  decide

/-- Digits, and what is behind them. -/
theorem parseJsonU64FieldValue_digits (ds : Digits) {behind : List UInt8} (field : String)
    (hbehind : ∀ b ∈ behind.head?, isAsciiDigit b = false) :
    parseJsonU64FieldValue (ds.val.map digitByte ++ behind) field =
      if behind.head?.any [46, 101, 69].contains then .error (raftRpcProtocolVersionNotU64 field)
      else
        match parseU64 (ds.val.map digitByte) with
        | none => .error (raftRpcProtocolVersionNotU64 field)
        | some number =>
          if (skipJsonWs behind).head?.any fun byte => !([44, 125].contains byte) then
            .error (raftRpcProtocolVersionNotU64 field)
          else .ok number := by
  obtain ⟨d, l, hds⟩ := List.exists_cons_of_ne_nil ds.property
  have hfirst := isAsciiDigit_digitByte d
  have hnumber : isNumberByte (digitByte d) = true := by rw [isNumberByte, hfirst, Bool.true_or]
  have hall := List.all_eq_true.1 (all_digits ds.val)
  have htake : (ds.val.map digitByte ++ behind).takeWhile isAsciiDigit = ds.val.map digitByte := by
    rw [List.takeWhile_append_of_pos hall]
    cases behind with
    | nil => exact List.append_nil _
    | cons b behind =>
      rw [List.takeWhile_cons_of_neg (by rw [hbehind b rfl]; exact Bool.false_ne_true), List.append_nil]
  have hdrop : (ds.val.map digitByte ++ behind).dropWhile isAsciiDigit = behind := by
    rw [List.dropWhile_append_of_pos hall]
    cases behind with
    | nil => rfl
    | cons b behind => rw [List.dropWhile_cons_of_neg (by rw [hbehind b rfl]; exact Bool.false_ne_true)]
  have hhead : (ds.val.map digitByte ++ behind).head? = some (digitByte d) := by rw [hds]; rfl
  have hskip : skipJsonWs (ds.val.map digitByte ++ behind) = ds.val.map digitByte ++ behind := by
    rw [hds]
    exact skipJsonWs_cons (isJsonWs_of_isNumberByte hnumber) _
  have hstart := digitByte_starts_number d
  rw [parseJsonU64FieldValue, hskip, hhead]
  simp only [hstart, hfirst, Bool.not_true, Bool.false_eq_true, if_false, htake, hdrop]

/-- Digits alone are the version, if it is one. -/
theorem parseJsonU64FieldValue_integer (ds : Digits) {rest : List UInt8} (hrest : EndsMember rest) (field : String) :
    parseJsonU64FieldValue (ds.val.map digitByte ++ rest) field =
      if JsonText.digitsValue ds.val ≤ u64Max then .ok (JsonText.digitsValue ds.val)
      else .error (raftRpcProtocolVersionNotU64 field) := by
  obtain ⟨c, tail, hskip, hc⟩ := hrest.skip
  have hends : ∀ b ∈ rest.head?, isAsciiDigit b = false ∧ [46, 101, 69, 43, 45].contains b = false := fun b hb =>
    Bool.or_eq_false_iff.1 (hrest.endsNumber b hb)
  have hmore : ¬rest.head?.any [46, 101, 69].contains := by
    cases hhead : rest.head? with
    | none => exact Bool.false_ne_true
    | some b =>
      have := (hends b hhead).2
      simp only [List.contains_eq_mem, List.mem_cons, List.not_mem_nil, or_false, decide_eq_false_iff_not,
        Option.any_some, decide_eq_true_eq] at this ⊢
      exact fun h => this (h.elim .inl fun h => .inr (h.elim .inl fun h => .inr (.inl h)))
  rw [parseJsonU64FieldValue_digits ds field fun b hb => (hends b hb).1, if_neg hmore, parseU64_digits, hskip]
  by_cases hfits : JsonText.digitsValue ds.val ≤ u64Max
  · simp only [if_pos hfits]
    rcases hc with rfl | rfl <;> rfl
  · simp only [if_neg hfits]

theorem parseJsonU64FieldValue_number (n : Number) {rest : List UInt8} (hrest : EndsMember rest) (field : String) :
    parseJsonU64FieldValue (bytes n.text ++ rest) field = fieldVerdict field (.number n) := by
  rw [fieldVerdict, Value.unsigned?, bytes_number]
  cases n.negative with
  | true => rfl
  | false =>
    simp only [Bool.false_eq_true, if_false, List.nil_append, List.append_assoc, true_and]
    cases n.frac with
    | some ds =>
      -- a point behind the digits
      rw [parseJsonU64FieldValue_digits]
      · rfl
      · intro b hb
        cases hb
        rfl
    | none =>
      cases n.exp with
      | some e =>
        -- an `e` behind the digits
        obtain ⟨upper, sign, digits⟩ := e
        rw [parseJsonU64FieldValue_digits]
        · cases upper <;> rfl
        · intro b hb
          cases upper <;> cases hb <;> rfl
      | none => exact parseJsonU64FieldValue_integer n.int hrest field

theorem parseJsonU64FieldValue_text (v : Value) {rest : List UInt8} (hrest : EndsMember rest) (field : String) :
    parseJsonU64FieldValue (bytes v.text ++ rest) field = fieldVerdict field v := by
  cases v with
  | null => exact parseJsonU64FieldValue_other _ field (by decide)
  | boolean b => cases b <;> exact parseJsonU64FieldValue_other _ field (by decide)
  | string s =>
    rw [Value.text, bytes_stringLit]
    exact parseJsonU64FieldValue_other _ field (by decide)
  | emptyArray ws =>
    rw [Value.text, bytes_array]
    exact parseJsonU64FieldValue_other _ field (by decide)
  | array elements =>
    rw [Value.text, bytes_array]
    exact parseJsonU64FieldValue_other _ field (by decide)
  | object o =>
    obtain ⟨more, hmore⟩ := object_cons o
    rw [Value.text, hmore]
    exact parseJsonU64FieldValue_other _ field (by decide)
  | number n => exact parseJsonU64FieldValue_number n hrest field

/-! ## The members of an object -/

theorem value_cons (v : Value) : ∃ b more, bytes v.text = b :: more ∧ isJsonWs b = false := by
  cases v with
  | null => exact ⟨110, [117, 108, 108], rfl, rfl⟩
  | boolean b =>
    cases b
    · exact ⟨102, [97, 108, 115, 101], rfl, rfl⟩
    · exact ⟨116, [114, 117, 101], rfl, rfl⟩
  | number n =>
    obtain ⟨b, more, hbytes, -⟩ := bytes_number_cons n
    have hall := all_bytes_number n
    rw [hbytes, List.all_cons, Bool.and_eq_true] at hall
    exact ⟨b, more, hbytes, isJsonWs_of_isNumberByte hall.1⟩
  | string s => exact ⟨34, _, bytes_stringLit s, rfl⟩
  | emptyArray ws => exact ⟨91, _, (bytes_array _).trans (List.cons_append ..), rfl⟩
  | array elements => exact ⟨91, _, (bytes_array _).trans (List.cons_append ..), rfl⟩
  | object o =>
    obtain ⟨more, hmore⟩ := object_cons o
    exact ⟨123, more, hmore, rfl⟩

theorem skipJsonWs_value (ws : Ws) (v : Value) (rest : List UInt8) :
    skipJsonWs (bytes (Ws.text ws) ++ (bytes v.text ++ rest)) = bytes v.text ++ rest := by
  obtain ⟨b, more, hbytes, hb⟩ := value_cons v
  refine skipJsonWs_text ws ?_
  rw [hbytes]
  intro c hc
  cases hc
  exact hb

theorem skipJsonWs_name (ws : Ws) (s : StringLit) (rest : List UInt8) :
    skipJsonWs (bytes (Ws.text ws) ++ (bytes s.text ++ rest)) = bytes s.text ++ rest := by
  refine skipJsonWs_text ws ?_
  rw [bytes_stringLit]
  intro c hc
  cases hc
  rfl

/-- White space before a byte that is none. -/
theorem skipJsonWs_byte (ws : Ws) {b : UInt8} (hb : isJsonWs b = false) (rest : List UInt8) :
    skipJsonWs (bytes (Ws.text ws) ++ b :: rest) = b :: rest := by
  refine skipJsonWs_text ws ?_
  intro c hc
  cases hc
  exact hb

theorem skipJsonWs_colon (ws : Ws) (rest : List UInt8) :
    skipJsonWs (bytes (Ws.text ws) ++ 58 :: rest) = 58 :: rest := skipJsonWs_byte ws rfl rest

/-- A turn over a member, behind the brace or the comma before it. -/
theorem scanMembers_turn (field : String) (turns : Nat) {lead : List UInt8} (hlead : lead = [] ∨ lead = [44])
    (before : Ws) (name : StringLit) (afterName beforeValue : Ws) (value : Value) {rest : List UInt8}
    (hrest : EndsMember rest) :
    scanMembers field (turns + 1) (lead ++ (bytes (Ws.text before) ++ (bytes name.text ++
        (bytes (Ws.text afterName) ++ 58 :: (bytes (Ws.text beforeValue) ++ (bytes value.text ++ rest)))))) =
      if name.value = field then (fieldVerdict field value).map some
      else if (skipJsonWs rest).head? = some 44 then scanMembers field turns (skipJsonWs rest) else .ok none := by
  have hkey := fun l => parseJsonObjectKey_text name l
  have hhead : ∀ l, (bytes name.text ++ l).head? = some 34 ∧ (bytes name.text ++ l).isEmpty = false := by
    intro l
    rw [bytes_stringLit]
    exact ⟨rfl, rfl⟩
  have hvalue : skipJsonValue (bytes value.text ++ rest) = some rest := skipJsonValue_text value hrest.endsNumber
  have hcomma : ∀ l, skipJsonWs ([44] ++ l) = 44 :: l := skipJsonWs_cons rfl
  have hquoteClose : ¬(some (34 : UInt8) = some 125) := by decide
  have hquoteComma : ¬(some (34 : UInt8) = some 44) := by decide
  have hcommaClose : ¬(some (44 : UInt8) = some 125) := by decide
  rcases hlead with rfl | rfl
  · simp only [scanMembers, List.nil_append, skipJsonWs_name, (hhead _).1, (hhead _).2, hquoteClose, hquoteComma,
      decide_false, Bool.or_false, Bool.false_eq_true, if_false, hkey, skipJsonWs_colon, List.head?_cons, ne_eq,
      not_true_eq_false, List.tail_cons, skipJsonWs_value, parseJsonU64FieldValue_text value hrest, hvalue]
  · simp only [scanMembers, hcomma, List.isEmpty_cons, List.head?_cons, hcommaClose, decide_false, Bool.or_false,
      Bool.false_eq_true, if_false, if_true, List.tail_cons, skipJsonWs_name, hkey, skipJsonWs_colon, ne_eq,
      not_true_eq_false, skipJsonWs_value, parseJsonU64FieldValue_text value hrest, hvalue]

/-- What the scanner is to say of an object: what it says of the first member of the name. -/
def verdict (field : String) (members : List (StringLit × Value)) : Except BrokerRaftError (Option Nat) :=
  match members.find? fun member => member.1.value = field with
  | none => .ok none
  | some member => (fieldVerdict field member.2).map some

theorem verdict_cons (field : String) (name : StringLit) (value : Value) (members : List (StringLit × Value)) :
    verdict field ((name, value) :: members) =
      if name.value = field then (fieldVerdict field value).map some else verdict field members := by
  rw [verdict, List.find?_cons]
  by_cases h : name.value = field
  · simp only [h, decide_true, if_true]
  · simp only [h, decide_false, if_false]
    rfl

/-- **The loop over the members** finds the first of the name. -/
theorem scanMembers_members (field : String) (ms : Members) {lead : List UInt8} (hlead : lead = [] ∨ lead = [44])
    (tail : List UInt8) {turns : Nat} (hturns : ms.toList.length ≤ turns) :
    scanMembers field turns (lead ++ (bytes ms.text ++ 125 :: tail)) = verdict field ms.toList := by
  cases ms with
  | last before name afterName beforeValue value after =>
    obtain ⟨turns, rfl⟩ := Nat.exists_eq_add_of_le' hturns
    have hrest : EndsMember (bytes (Ws.text after) ++ 125 :: tail) := ⟨after, 125, tail, rfl, .inr rfl⟩
    have hskip : skipJsonWs (bytes (Ws.text after) ++ 125 :: tail) = 125 :: tail := skipJsonWs_byte after rfl tail
    simp only [Members.text, JsonText.bytes_append, bytes_colon, List.append_assoc, List.cons_append]
    rw [Members.toList, List.length_singleton,
      scanMembers_turn field turns hlead before name afterName beforeValue value hrest, hskip, verdict_cons]
    rfl
  | cons before name afterName beforeValue value after more =>
    obtain ⟨turns, rfl⟩ := Nat.exists_eq_add_of_le' (Nat.le_trans (Nat.le_add_left 1 _) hturns)
    have hmore : more.toList.length ≤ turns := Nat.le_of_succ_le_succ hturns
    have hrest : EndsMember (bytes (Ws.text after) ++ 44 :: (bytes more.text ++ 125 :: tail)) :=
      ⟨after, 44, _, rfl, .inl rfl⟩
    have hskip : skipJsonWs (bytes (Ws.text after) ++ 44 :: (bytes more.text ++ 125 :: tail)) =
        44 :: (bytes more.text ++ 125 :: tail) := skipJsonWs_byte after rfl _
    simp only [Members.text, JsonText.bytes_append, bytes_colon, bytes_comma, List.append_assoc, List.cons_append]
    rw [scanMembers_turn field turns hlead before name afterName beforeValue value hrest, hskip, Members.toList,
      verdict_cons, List.head?_cons, if_pos rfl]
    rw [← scanMembers_members field more (.inr rfl) tail hmore]
    rfl

/-! ## The line -/

theorem isWhitespace_ws {ws : Ws} : ∀ c ∈ Ws.text ws, isWhitespace c = true := by
  intro c hc
  obtain ⟨w, -, rfl⟩ := List.mem_map.1 hc
  cases w <;> rfl

theorem object_text (o : Object) : ∃ inner, o.text = '\x7b' :: inner ++ ['\x7d'] := by
  cases o with
  | empty ws => exact ⟨Ws.text ws, rfl⟩
  | members ms => exact ⟨ms.text, rfl⟩

/-- The text of an object is a line's, but for the white space around it. -/
theorem trim_object (before after : Ws) (o : Object) : trim (Ws.text before ++ o.text ++ Ws.text after) = o.text := by
  obtain ⟨inner, htext⟩ := object_text o
  have hfront : (Ws.text before ++ o.text ++ Ws.text after).dropWhile isWhitespace = o.text ++ Ws.text after := by
    rw [List.append_assoc, List.dropWhile_append_of_pos isWhitespace_ws, htext]
    exact List.dropWhile_cons_of_neg (by decide)
  have hback : (o.text ++ Ws.text after).reverse.dropWhile isWhitespace = o.text.reverse := by
    have hreverse : ∀ c ∈ (Ws.text after).reverse, isWhitespace c = true := fun c hc =>
      isWhitespace_ws c (List.mem_reverse.1 hc)
    rw [List.reverse_append, List.dropWhile_append_of_pos hreverse, htext, List.reverse_append]
    exact List.dropWhile_cons_of_neg (by decide)
  rw [trim, hfront, hback, List.reverse_reverse]

theorem toList_length_le (ms : Members) : ms.toList.length ≤ (bytes ms.text).length := by
  cases ms with
  | last before name afterName beforeValue value after =>
    simp only [Members.toList, Members.text, JsonText.bytes_append, bytes_stringLit, List.length_append,
      List.length_cons, List.length_nil]
    omega
  | cons before name afterName beforeValue value after more =>
    have := toList_length_le more
    simp only [Members.toList, Members.text, JsonText.bytes_append, bytes_stringLit, bytes_comma, List.length_append,
      List.length_cons]
    omega

/-- A line that is an object, with white space around it. -/
def objectLine (before : Ws) (o : Object) (after : Ws) : String :=
  String.ofList (Ws.text before ++ o.text ++ Ws.text after)

/-- The scanner on the text of an object. -/
theorem topLevelRaftRpcMinProtocolVersion_eq (before after : Ws) (o : Object) (field : String) :
    topLevelRaftRpcMinProtocolVersion (objectLine before o after) field = verdict field o.toList := by
  simp only [topLevelRaftRpcMinProtocolVersion, objectLine, String.toList_ofList, trim_object]
  cases o with
  | empty ws =>
    have hskip : skipJsonWs (bytes (Ws.text ws) ++ [125]) = [125] := skipJsonWs_byte ws rfl []
    rw [Object.text, bytes_object, List.cons_append, List.head?_cons, if_neg (not_not_intro rfl),
      List.length_cons, List.tail_cons, scanMembers, hskip]
    rfl
  | members ms =>
    have hlength := toList_length_le ms
    have hturns : ms.toList.length ≤ (123 :: (bytes ms.text ++ [125])).length := by
      simp only [List.length_cons, List.length_append]
      omega
    rw [Object.text, bytes_object, List.cons_append, List.head?_cons, if_neg (not_not_intro rfl),
      List.tail_cons]
    exact scanMembers_members field ms (.inl rfl) [] hturns

/-- The value of the first member of a name. -/
def firstNamed (field : String) (o : Object) : Option Value :=
  (o.toList.find? fun member => member.1.value = field).map (·.2)

/-- **The scanner agrees with JSON.** For the text of every object, with whatever white space
around and in it: the version is found exactly when the first member whose name stands for
the field is an unsigned integer below 2^64, an error is returned exactly when it is
something else, and nothing is found exactly when there is none. -/
theorem topLevelRaftRpcMinProtocolVersion_agrees (before after : Ws) (o : Object) (field : String) :
    (∀ v, topLevelRaftRpcMinProtocolVersion (objectLine before o after) field = .ok (some v) ↔
      ∃ value, firstNamed field o = some value ∧ value.unsigned? = some v ∧ v < 2 ^ 64) ∧
    ((∃ err, topLevelRaftRpcMinProtocolVersion (objectLine before o after) field = .error err) ↔
      ∃ value, firstNamed field o = some value ∧ ¬∃ v, value.unsigned? = some v ∧ v < 2 ^ 64) ∧
    (topLevelRaftRpcMinProtocolVersion (objectLine before o after) field = .ok none ↔ firstNamed field o = none) := by
  rw [topLevelRaftRpcMinProtocolVersion_eq, firstNamed, verdict]
  cases o.toList.find? fun member => member.1.value = field with
  | none => simp
  | some member =>
    have hvalue := fun n => fieldVerdict_eq_ok field member.2 n
    cases hverdict : fieldVerdict field member.2 with
    | ok n =>
      obtain ⟨hn, hfits⟩ := (hvalue n).1 hverdict
      simp only [Except.map, hverdict, Option.map_some, Except.ok.injEq, Option.some.injEq, exists_eq_left',
        reduceCtorEq, exists_false, hn, false_iff, not_not]
      refine ⟨fun v => ⟨?_, fun hv => hv.1⟩, hfits, trivial⟩
      rintro rfl
      exact ⟨rfl, hfits⟩
    | error err =>
      have hno : ∀ v, ¬(member.2.unsigned? = some v ∧ v < 2 ^ 64) := by
        intro v hv
        have hok := (hvalue v).2 hv
        rw [hverdict] at hok
        cases hok
      simp only [Except.map, hverdict, Option.map_some, Option.some.injEq, exists_eq_left', reduceCtorEq, hno,
        exists_false, not_false_eq_true, iff_true, implies_true, true_and]
      exact ⟨⟨err, rfl⟩, trivial⟩

/-- A frame is turned away exactly when it asks for what is not a version or for a later one. -/
theorem validateRaftRpcProtocolMinimum_eq_ok_iff (before after : Ws) (o : Object) :
    validateRaftRpcProtocolMinimum (objectLine before o after) = .ok () ↔
      ∀ value, firstNamed raftRpcMinProtocolVersionField o = some value →
        ∃ v, value.unsigned? = some v ∧ v ≤ raftRpcProtocolVersion := by
  rw [validateRaftRpcProtocolMinimum, topLevelRaftRpcMinProtocolVersion_eq, firstNamed, verdict]
  cases o.toList.find? fun member => member.1.value = raftRpcMinProtocolVersionField with
  | none => simp [Except.bind]
  | some member =>
    have hvalue := fun n => fieldVerdict_eq_ok raftRpcMinProtocolVersionField member.2 n
    cases hverdict : fieldVerdict raftRpcMinProtocolVersionField member.2 with
    | ok n =>
      have hn := ((hvalue n).1 hverdict).1
      simp only [Except.map, Except.bind, hverdict, Option.map_some, Option.some.injEq, forall_eq', hn]
      by_cases hle : n ≤ raftRpcProtocolVersion
      · simp [hle]
      · simp [hle]
    | error err =>
      simp only [Except.map, Except.bind, hverdict, Option.map_some, Option.some.injEq, forall_eq', reduceCtorEq,
        false_iff, not_exists]
      rintro v ⟨hv, hle⟩
      have hok := (hvalue v).2 ⟨hv, by rw [raftRpcProtocolVersion] at hle; omega⟩
      rw [hverdict] at hok
      cases hok

end LiveMutex.Raft
