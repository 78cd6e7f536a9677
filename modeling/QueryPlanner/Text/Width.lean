import QueryPlanner.Text.Emoji
import QueryPlanner.Text.Wide
import QueryPlanner.Text.ZeroWidth

/-!
# Columns of a text

How many columns a line takes on a terminal. Most characters have a width of their own. A ligature,
a sequence of pictographs or a selector of style has another width than its characters together, so
a line is read from its end, and what was read decides about the character before it. Colour escapes
take no room but for the escape character that starts them. Of all that, a line of printable ASCII
has nothing: it is as wide as it is long (`lineWidth_of_ascii`).
-/

namespace QueryPlanner.Text

def isControl (c : Char) : Bool := c.toNat < 0x20 || 0x7f ≤ c.toNat && c.toNat < 0xa0

/-- Columns of a character by itself. A control has none there. -/
def columns (c : Char) : Nat :=
  if isControl c then 0
  else if c.toNat < 0xa0 then 1
  else if c = '\u17d8' then 3
  else if zeroWidth.contains c then 0
  else if wide.contains c then 2
  else 1

/-- The style that a selector asks for. -/
inductive Style where
  | text
  | colour
  deriving DecidableEq

/-- What a text starts with, as far as it bears on the character before it. -/
inductive Opening where
  | plain
  | lineFeed
  | arabicAlef
  | hebrewLamed
  | khmerLetter
  | bugineseYa
  | bugineseVowelYa
  | tifinaghLetter
  | tifinaghJoiner
  | lisuTone
  | turkicI
  | emoji
  | skinTone
  | indicator
  | indicators
  | joinedEmoji
  | joinedKeycap
  | joinedIndicator
  | joinedIndicators (even : Bool)
  | joinedTags (letters digits : Nat)
  deriving DecidableEq

namespace Opening

/-- Letters that may form a ligature with those before them. -/
def joinsLetters : Opening → Bool
  | arabicAlef | hebrewLamed | khmerLetter | bugineseYa | bugineseVowelYa | tifinaghLetter
  | tifinaghJoiner | lisuTone | turkicI => true
  | _ => false

/-- A pictograph with a joiner in front. -/
def joinsEmoji : Opening → Bool
  | joinedEmoji | joinedKeycap => true
  | _ => false

/-- What a text that starts with the character opens with, by that character alone. -/
def ofChar (c : Char) : Opening :=
  let n := c.toNat
  let among (blocks : List (Nat × Nat)) : Bool := CharacterSet.contains ⟨blocks⟩ c
  if n ≤ 0xa0 then (if c = '\n' then lineFeed else plain)
  else if among [(0x622, 0x623), (0x625, 0x625), (0x627, 0x627), (0x671, 0x673), (0x675, 0x675),
    (0x773, 0x774), (0x870, 0x882)] then arabicAlef
  else if n = 0x5dc then hebrewLamed
  else if among [(0x1780, 0x1782), (0x1784, 0x1787), (0x1789, 0x178c), (0x178e, 0x1793),
    (0x1795, 0x1798), (0x179b, 0x179d), (0x17a0, 0x17a0), (0x17a2, 0x17a2), (0x17a7, 0x17a7),
    (0x17ab, 0x17ac), (0x17af, 0x17af)] then khmerLetter
  else if n = 0x1a10 then bugineseYa
  else if among [(0x2d31, 0x2d65), (0x2d6f, 0x2d6f)] then tifinaghLetter
  else if among [(0xa4fc, 0xa4fd)] then lisuTone
  else if n = 0x10c03 then turkicI
  else if Emoji.isIndicator c then indicator
  else if Emoji.isSkinTone c then skinTone
  else if Emoji.colourful.contains c then emoji
  else plain

end Opening

/-- What lies behind a character: how the text there opens, with the selector of style and the
joiner that stand in between. -/
structure Behind where
  opening : Opening
  style : Option Style
  joined : Bool
  deriving DecidableEq

namespace Behind

def of (opening : Opening) : Behind := ⟨opening, none, false⟩

/-- With a selector in front. It ends a sequence of pictographs, unless it tells how to show one
that is joined to the sequence. -/
def select (b : Behind) (s : Style) : Behind :=
  if b.opening.joinsLetters || s = .colour && b.opening.joinsEmoji then { b with style := some s }
  else ⟨.plain, some s, false⟩

/-- Without the selector, which had nothing to select. -/
def unselect (b : Behind) : Behind :=
  match b.style with
  | none => b
  | some _ => if b.opening.joinsLetters then { b with style := none } else of .plain

end Behind

/-- Marks to be ignored, which leave a ligature whole. -/
def ignorableMarks : CharacterSet :=
  ⟨[(0x34f, 0x34f), (0x17b4, 0x17b5), (0x180b, 0x180d), (0x180f, 0x180f), (0xfe00, 0xfe0f),
    (0xe0100, 0xe01ef)]⟩

/-- Letters that form a ligature with an alef behind them. -/
def arabicLams : CharacterSet :=
  ⟨[(0x644, 0x644), (0x6b5, 0x6b8), (0x76a, 0x76a), (0x8a6, 0x8a6), (0x8c7, 0x8c7)]⟩

def zeroWidthJoiner : Char := '\u200d'

/-- Columns that a character adds to a text as part of a ligature with the letters there, and what
then lies behind. The letters have been counted, so that less than none may be added. -/
def Behind.ligature? (b : Behind) (c : Char) : Option (Int × Behind) :=
  let n := c.toNat
  let isTifinagh := Opening.ofChar c = .tifinaghLetter
  let ends (columns : Int) : Option (Int × Behind) := some (columns, .of .plain)
  if b.opening = .arabicAlef then
    if arabicLams.contains c then ends 0
    else if zeroWidth.contains c && !opaqueToJoining.contains c then some (0, b)
    else none
  else if b.opening.joinsLetters && c = zeroWidthJoiner then some (0, { b with joined := true })
  else if b.opening.joinsLetters && ignorableMarks.contains c then some (0, b)
  else match b.opening with
    | .hebrewLamed => if b.joined && n = 0x5d0 then ends 0 else none
    | .khmerLetter => if n = 0x17d2 then ends (-1) else none
    | .bugineseYa => if b.joined && n = 0x1a17 then some (0, .of .bugineseVowelYa) else none
    | .bugineseVowelYa => if n = 0x1a15 then ends 0 else none
    | .tifinaghLetter =>
      if n = 0x2d7f then some (1, .of .tifinaghJoiner)
      else if b.joined && isTifinagh then ends 0 else none
    | .tifinaghJoiner => if isTifinagh then ends (-1) else none
    | .lisuTone => if 0xa4f8 ≤ n && n ≤ 0xa4fb then ends 0 else none
    | .turkicI => if b.joined && n = 0x10c32 then ends 0 else none
    | _ => none

/-- Columns that a character adds to a text as part of a sequence of pictographs that goes on there,
and how the text opens then. A sequence is as wide as one pictograph. The flag of a part of a
country is a black flag with tags: at least three letters, or three digits and then letters. -/
def Behind.sequence? (b : Behind) (c : Char) : Option (Int × Opening) :=
  let n := c.toNat
  match b.opening with
  | .skinTone =>
    if Emoji.toned.contains c then some (0, .emoji)
    else if c = zeroWidthJoiner then some (0, .joinedEmoji) else none
  | .indicator => if Emoji.isIndicator c then some (1, .indicators) else none
  | .indicators =>
    if Emoji.isIndicator c then some (1, .indicators)
    else if c = zeroWidthJoiner then some (0, .joinedEmoji) else none
  | .emoji => if c = zeroWidthJoiner then some (0, .joinedEmoji) else none
  | .joinedEmoji =>
    match Opening.ofChar c with
    | .indicator => some (1, .joinedIndicator)
    | .skinTone => some (0, .skinTone)
    | .emoji => some (0, .emoji)
    | _ =>
      if c = '\u20e3' then some (0, .joinedKeycap)
      else if n = 0xe007f then some (0, .joinedTags 0 0)
      else none
  | .joinedIndicator => if Emoji.isIndicator c then some (-1, .joinedIndicators true) else none
  | .joinedIndicators even =>
    if Emoji.isIndicator c then some (if even then 3 else -1, .joinedIndicators !even)
    else if c = zeroWidthJoiner then some (0, .joinedEmoji) else none
  | .joinedTags letters digits =>
    if 0xe0061 ≤ n && n ≤ 0xe007a && letters < 6 && digits = 0 then
      some (0, .joinedTags (letters + 1) 0)
    else if 0xe0030 ≤ n && n ≤ 0xe0039 && letters ≤ 4 && digits < 3 then
      some (0, .joinedTags letters (digits + 1))
    else if n = 0x1f3f4 && (digits = 3 || digits = 0 && 3 ≤ letters) then some (0, .emoji)
    else none
  | _ => none

/-- Columns that a character adds to a text with this behind it, and what then lies behind the
character before. -/
def Behind.prepend (b : Behind) (c : Char) : Int × Behind :=
  if b.style = some .colour && Emoji.styled.contains c then
    (if b.opening.joinsEmoji then 0 else 2, .of .emoji)
  else
    let b := if b.style = some .colour then b.unselect else b
    if c.toNat ≤ 0xa0 then
      (if c = '\r' && b.opening = .lineFeed then 0 else 1, .of (.ofChar c))
    else if c = '\ufe0f' then (0, b.select .colour)
    else if c = '\ufe0e' then (0, b.select .text)
    else if b.style = some .text && Emoji.narrowsAsText c then (1, .of .plain)
    else
      let b := b.unselect
      match b.ligature? c, b.sequence? c with
      | some (columns, next), _ => (columns, next)
      | none, some (columns, opening) => (columns, .of opening)
      | none, none => (columns c, .of (.ofChar c))

/-- Columns of the characters of a line, the controls among them taking one. -/
def sequenceColumns (line : List Char) : Int :=
  (line.foldr (fun c (columns, b) =>
    let (more, b) := b.prepend c
    (columns + more, b)) (0, Behind.of .plain)).1

/-- The characters of colour escapes, each from the bracket after an escape character to the next
letter m. -/
def colourEscapes : Bool → List Char → List Char
  | _, [] => []
  | true, c :: rest => c :: colourEscapes (c != 'm') rest
  | false, '\x1b' :: '[' :: rest => '[' :: colourEscapes true rest
  | false, '\x1b' :: _ :: rest => colourEscapes false rest
  | false, _ :: rest => colourEscapes false rest

/-- Columns that a line takes. -/
def lineWidth (line : String) : Nat :=
  let hidden := (colourEscapes false line.toList).filter fun c => 0 < columns c
  (sequenceColumns line.toList).toNat - hidden.length

/-! ## Lines of ASCII -/

theorem prepend_of_ascii {c : Char} (h : 0x20 ≤ c.toNat) (h' : c.toNat < 0x7f) :
    (Behind.of .plain).prepend c = (1, .of .plain) := by
  have hr : c ≠ '\r' := by rintro rfl; revert h; decide
  have hn : c ≠ '\n' := by rintro rfl; revert h; decide
  have hle : c.toNat ≤ 0xa0 := by omega
  simp [Behind.prepend, Behind.of, Opening.ofChar, hr, hn, hle]

theorem foldr_prepend_of_ascii {line : List Char}
    (h : ∀ c ∈ line, 0x20 ≤ c.toNat ∧ c.toNat < 0x7f) :
    line.foldr (fun c (columns, b) => let (more, b) := b.prepend c; (columns + more, b))
      ((0 : Int), Behind.of .plain) = ((line.length : Int), .of .plain) := by
  induction line with
  | nil => rfl
  | cons c rest ih =>
    obtain ⟨h1, h2⟩ := h c (by simp)
    have ih := ih fun d hd => h d (by simp [hd])
    simp [List.foldr_cons, ih, prepend_of_ascii h1 h2]

theorem sequenceColumns_of_ascii {line : List Char}
    (h : ∀ c ∈ line, 0x20 ≤ c.toNat ∧ c.toNat < 0x7f) : sequenceColumns line = line.length := by
  rw [sequenceColumns, foldr_prepend_of_ascii h]

theorem colourEscapes_of_ascii {line : List Char}
    (h : ∀ c ∈ line, 0x20 ≤ c.toNat ∧ c.toNat < 0x7f) : colourEscapes false line = [] := by
  induction line with
  | nil => rfl
  | cons c rest ih =>
    have hc : c ≠ '\x1b' := by
      rintro rfl
      exact absurd (h '\x1b' (by simp)).1 (by decide)
    rw [colourEscapes]
    · exact ih fun d hd => h d (by simp [hd])
    · grind
    · grind

/-- A line of printable ASCII takes a column for each of its characters. -/
theorem lineWidth_of_ascii {line : String}
    (h : ∀ c ∈ line.toList, 0x20 ≤ c.toNat ∧ c.toNat < 0x7f) : lineWidth line = line.length := by
  simp [lineWidth, sequenceColumns_of_ascii h, colourEscapes_of_ascii h, String.length_toList]

end QueryPlanner.Text
