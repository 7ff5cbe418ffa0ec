/-! Texts as the bytes of their UTF-8, and bytes as texts. -/
namespace HackStack.Text

def bytes (text : String) : List UInt8 := text.toUTF8.data.toList

def ofBytes? (bytes : List UInt8) : Option String := String.fromUTF8? ⟨⟨bytes⟩⟩

/-- Where the second byte of a character may lie. The bounds leave out spellings that are too long,
surrogates, and what is past the last code point. -/
def secondRange (first : UInt8) : UInt8 × UInt8 :=
  if first = 0xE0 then (0xA0, 0xBF)
  else if first = 0xED then (0x80, 0x9F)
  else if first = 0xF0 then (0x90, 0xBF)
  else if first = 0xF4 then (0x80, 0x8F)
  else (0x80, 0xBF)

/-- Whether a byte goes on with a character that has begun. -/
def continues (begun : List UInt8) (byte : UInt8) : Bool :=
  match begun with
  | [] => false
  | [first] => (secondRange first).1 ≤ byte && byte ≤ (secondRange first).2
  | _ => 0x80 ≤ byte && byte ≤ 0xBF

/-- A byte that goes on with nothing: what it shows, and the character that it begins. -/
def start (byte : UInt8) : List Char × List UInt8 :=
  if byte < 0x80 then ([Char.ofNat byte.toNat], [])
  else if 0xC2 ≤ byte && byte ≤ 0xF4 then ([], [byte])
  else (['\uFFFD'], [])

/-- Reads bytes after the beginning of a character. One that is not completed, and a byte that
begins none, is replaced. -/
def repair (begun : List UInt8) : List UInt8 → List Char
  | [] => if begun = [] then [] else ['\uFFFD']
  | byte :: rest =>
    if continues begun byte then
      match ofBytes? (begun ++ [byte]) with
      | some complete => complete.toList ++ repair [] rest
      | none => repair (begun ++ [byte]) rest
    else
      let (shown, next) := start byte
      (if begun = [] then [] else ['\uFFFD']) ++ shown ++ repair next rest

/-- Bytes as a text for people to read. -/
def shown (bytes : List UInt8) : String := (ofBytes? bytes).getD (String.ofList (repair [] bytes))

theorem ofBytes?_eq_some_iff {bytes : List UInt8} {text : String} :
    ofBytes? bytes = some text ↔ bytes = Text.bytes text := by
  unfold ofBytes? String.fromUTF8?
  constructor
  · intro read
    split at read
    · cases read
      rfl
    · cases read
  · rintro rfl
    exact dif_pos text.isValidUTF8

example : shown [0x41, 0xC3, 0xA9, 0xE2, 0x82, 0x41, 0xFF] = "Aé\uFFFDA\uFFFD" := by
  decide +kernel

end HackStack.Text
