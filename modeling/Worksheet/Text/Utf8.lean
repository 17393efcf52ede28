/-! # Bytes and text

Texts are stored as UTF-8. Stored bytes need not be a text as a whole: they are read as symbols,
which are characters and the bytes where none is encoded, so that damage does no harm where nobody
looks at it. What has been stored as a text reads back in both ways: `symbols_encode`,
`decode?_encode`. -/

namespace Worksheet.Text

/-- A symbol of stored bytes: a character, or a byte that belongs to none. -/
inductive Symbol where
  | char (c : Char)
  | damage (byte : UInt8)
deriving DecidableEq, Repr

namespace Symbol

/-- Whether a symbol is a character with the property. -/
def is (p : Char → Bool) : Symbol → Bool
  | char c => p c
  | damage _ => false

/-- The character of a symbol that is one. -/
def char? : Symbol → Option Char
  | char c => some c
  | damage _ => none

end Symbol

/-- The symbols from the byte `i` on. -/
def symbolsFrom (bytes : ByteArray) (i : Nat) : List Symbol :=
  if h : i < bytes.size then
    match bytes.utf8DecodeChar? i with
    | some c => .char c :: symbolsFrom bytes (i + c.utf8Size)
    | none => .damage bytes[i] :: symbolsFrom bytes (i + 1)
  else []
termination_by bytes.size - i
decreasing_by
  · have := c.utf8Size_pos; omega
  · omega

/-- The symbols of the bytes. -/
def symbols (bytes : ByteArray) : List Symbol := symbolsFrom bytes 0

/-- The symbols of a text. -/
def symbolsOf (s : String) : List Symbol := s.toList.map .char

/-- The characters of symbols without damage. -/
def characters? (s : List Symbol) : Option (List Char) := s.mapM Symbol.char?

/-- The text of the bytes, if they are one. -/
def decode? (bytes : ByteArray) : Option String := String.fromUTF8? bytes

/-- The bytes of a text. -/
def encode (s : String) : ByteArray := s.toUTF8

/-! ### What is stored reads back -/

@[simp] theorem characters?_nil : characters? [] = some [] := rfl

@[simp] theorem characters?_cons (x : Symbol) (s : List Symbol) :
    characters? (x :: s) = x.char?.bind fun c => (characters? s).map (c :: ·) := by
  cases h : x.char? <;> cases h' : s.mapM Symbol.char? <;> simp [characters?, List.mapM_cons, h, h']

theorem characters?_map (s : List Char) : characters? (s.map .char) = some s := by
  induction s with
  | nil => rfl
  | cons c s ih => simp [ih, Symbol.char?]

theorem symbolsFrom_append (before : ByteArray) (s : List Char) :
    symbolsFrom (before ++ s.utf8Encode) before.size = s.map .char := by
  induction s generalizing before with
  | nil => unfold symbolsFrom; simp
  | cons c s ih =>
    have hc : (before ++ (c :: s).utf8Encode).utf8DecodeChar? before.size = some c := by
      rw [ByteArray.utf8DecodeChar?_eq_utf8DecodeChar?_extract,
        ByteArray.extract_append_eq_right rfl ByteArray.size_append]
      exact List.utf8DecodeChar?_utf8Encode_cons
    have hsize : (before ++ [c].utf8Encode).size = before.size + c.utf8Size := by
      simp [ByteArray.size_append, List.utf8Encode_singleton]
    have hlt : before.size < (before ++ (c :: s).utf8Encode).size := by
      have := c.utf8Size_pos
      rw [List.utf8Encode_cons, ← ByteArray.append_assoc, ByteArray.size_append, hsize]; omega
    unfold symbolsFrom
    rw [dif_pos hlt, hc]
    simp only [List.map_cons]
    rw [← hsize, List.utf8Encode_cons, ← ByteArray.append_assoc, ih]

theorem symbols_encode (s : String) : symbols (encode s) = symbolsOf s := by
  have h := symbolsFrom_append .empty s.toList
  rwa [String.utf8Encode_toList, ByteArray.empty_append] at h

theorem decode?_encode (s : String) : decode? (encode s) = some s := by
  simp only [decode?, encode, String.fromUTF8?, String.toUTF8_eq_toByteArray,
    Option.dite_none_right_eq_some]
  exact ⟨s.isValidUTF8, rfl⟩

end Worksheet.Text
