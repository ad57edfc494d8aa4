/-
Document text, measured in bytes.

A text is a list of characters, so that everything which reads it is a recursion on its tail.
Offsets, however, are what editors exchange, and they count UTF-8 bytes. This file holds the
two views and the passage between them: `Text.size` measures a text, `Text.slice` cuts the part
between two offsets out of it, and `Text.seek` and `Text.strip?` are the two ways the readers of
this library move forward.

Main statements: cutting a text at the size of a first part gives back the two parts
(`takeBytes_append`, `dropBytes_append`), the boundaries of a text are the sizes of its first parts
(`isBoundary_iff`), seeking only drops characters (`seek_suffix`), and it stops where it was asked
to (`seek_stops`).
-/

set_option autoImplicit false

namespace HybridMarkup

/-- The text of a document, or a part of one. -/
abbrev Text := List Char

/-- The part of a text between two byte offsets, the second excluded. -/
structure Span where
  start : Nat
  stop : Nat
deriving DecidableEq, Repr, Inhabited

namespace Span

/-- The span of the given length that begins at an offset. -/
def ofLength (start length : Nat) : Span := ⟨start, start + length⟩

/-- The span between two offsets, which have to be in order. -/
def ordered? (start stop : Nat) : Option Span :=
  if start ≤ stop then some ⟨start, stop⟩ else none

theorem ordered?_eq {start stop : Nat} (h : start ≤ stop) :
    ordered? start stop = some ⟨start, stop⟩ := if_pos h

theorem isSome_ordered? (start stop : Nat) : (ordered? start stop).isSome ↔ start ≤ stop := by
  unfold ordered?
  split <;> simp_all

/-- The empty span at an offset. -/
def empty (offset : Nat) : Span := ⟨offset, offset⟩

/-- The number of bytes covered. -/
def length (s : Span) : Nat := s.stop - s.start

/-- Whether an offset lies in the span, its two ends included. -/
def touches (s : Span) (offset : Nat) : Bool :=
  decide (s.start ≤ offset) && decide (offset ≤ s.stop)

/-- Whether another span lies inside this one. -/
def includes (s t : Span) : Bool :=
  decide (s.start ≤ t.start) && decide (t.stop ≤ s.stop)

/-- The least span that includes both. -/
def cover (s t : Span) : Span := ⟨min s.start t.start, max s.stop t.stop⟩

/-- The same start with the end moved to at least `stop`. -/
def growTo (s : Span) (stop : Nat) : Span := ⟨s.start, max s.stop stop⟩

end Span

namespace Text

/-! ## Bytes -/

/-- The number of bytes of the text in UTF-8. -/
def size : Text → Nat
  | [] => 0
  | c :: t => c.utf8Size + size t

/-- What is left after the first `n` bytes. A character that straddles the cut is dropped. -/
def dropBytes : Nat → Text → Text
  | 0, t => t
  | _, [] => []
  | n + 1, c :: t => dropBytes (n + 1 - c.utf8Size) t

/-- The characters that lie wholly within the first `n` bytes. -/
def takeBytes : Nat → Text → Text
  | _, [] => []
  | n, c :: t => if c.utf8Size ≤ n then c :: takeBytes (n - c.utf8Size) t else []

/-- The part of the text in a span. -/
def slice (t : Text) (s : Span) : Text := takeBytes s.length (dropBytes s.start t)

/-- Whether an offset falls between two characters, or at an end of the text. -/
def isBoundary : Nat → Text → Bool
  | 0, _ => true
  | _ + 1, [] => false
  | n + 1, c :: t => if c.utf8Size ≤ n + 1 then isBoundary (n + 1 - c.utf8Size) t else false

theorem size_append (s t : Text) : size (s ++ t) = size s + size t := by
  induction s with
  | nil => simp [size]
  | cons c s ih => simp only [List.cons_append, size, ih]; omega

theorem dropBytes_append (s t : Text) : dropBytes (size s) (s ++ t) = t := by
  induction s with
  | nil => simp [size, dropBytes]
  | cons c s ih =>
    have hc := Char.utf8Size_pos c
    obtain ⟨k, hk⟩ : ∃ k, c.utf8Size + size s = k + 1 := ⟨c.utf8Size + size s - 1, by omega⟩
    simp only [List.cons_append, size, hk, dropBytes]
    rw [show k + 1 - c.utf8Size = size s by omega, ih]

theorem takeBytes_append (s t : Text) : takeBytes (size s) (s ++ t) = s := by
  induction s with
  | nil =>
    cases t with
    | nil => rfl
    | cons c t =>
      have hc := Char.utf8Size_pos c
      simp only [size, List.nil_append, takeBytes]
      rw [if_neg (by omega)]
  | cons c s ih =>
    simp only [List.cons_append, size, takeBytes]
    rw [if_pos (by omega), show c.utf8Size + size s - c.utf8Size = size s by omega, ih]

/-- An offset lies between two characters just when it is the size of a first part. -/
theorem isBoundary_iff {n : Nat} {t : Text} :
    isBoundary n t = true ↔ ∃ s r, t = s ++ r ∧ size s = n := by
  induction t generalizing n with
  | nil =>
    cases n with
    | zero => exact ⟨fun _ => ⟨[], [], rfl, rfl⟩, fun _ => rfl⟩
    | succ n =>
      refine ⟨fun h => by simp [isBoundary] at h, ?_⟩
      rintro ⟨s, r, h, hs⟩
      obtain ⟨rfl, rfl⟩ := List.append_eq_nil_iff.1 h.symm
      simp [size] at hs
  | cons c t ih =>
    cases n with
    | zero => exact ⟨fun _ => ⟨[], c :: t, rfl, rfl⟩, fun _ => rfl⟩
    | succ n =>
      by_cases hc : c.utf8Size ≤ n + 1
      · simp only [isBoundary, hc, if_true, ih]
        constructor
        · rintro ⟨s, r, rfl, hs⟩
          exact ⟨c :: s, r, rfl, by simp only [size]; omega⟩
        · rintro ⟨s, r, h, hs⟩
          cases s with
          | nil => simp [size] at hs
          | cons d s =>
            obtain ⟨rfl, rfl⟩ := List.cons.inj h
            exact ⟨s, r, rfl, by simp only [size] at hs; omega⟩
      · simp only [isBoundary, hc, if_false]
        refine ⟨fun h => by simp at h, ?_⟩
        rintro ⟨s, r, h, hs⟩
        cases s with
        | nil => simp [size] at hs
        | cons d s =>
          obtain ⟨rfl, rfl⟩ := List.cons.inj h
          simp only [size] at hs
          omega

/-! ## Moving forward -/

/-- What follows the given beginning, if the text has it. -/
def strip? : Text → Text → Option Text
  | [], t => some t
  | _ :: _, [] => none
  | b :: beginning, c :: t => if b = c then strip? beginning t else none

/-- Whether the text has the given beginning. -/
def startsWith (beginning t : Text) : Bool := (strip? beginning t).isSome

/-- The same question with the ASCII letters of both sides taken without their case. -/
def startsWithIgnoringCase : Text → Text → Bool
  | [], _ => true
  | _ :: _, [] => false
  | b :: beginning, c :: t => b.toLower == c.toLower && startsWithIgnoringCase beginning t

/-- The character without its case, by the simple folding of Unicode as far as it meets ASCII
letters: besides the capitals, the long s and the sign for kelvin are forms of such letters. -/
def foldCase (c : Char) : Char :=
  match c.toLower with
  | '\u017f' => 's'
  | '\u212a' => 'k'
  | c => c

/-- The same question with the characters of both sides folded. -/
def startsWithFolded : Text → Text → Bool
  | [], _ => true
  | _ :: _, [] => false
  | b :: beginning, c :: t => foldCase b == foldCase c && startsWithFolded beginning t

/-- Whether two texts are equal once the case of ASCII letters is ignored. -/
def equalIgnoringCase (s t : Text) : Bool := s.map Char.toLower == t.map Char.toLower

/-- What follows the leading characters of a class, if there is at least one. -/
def passWhile? (p : Char → Bool) : Text → Option Text
  | [] => none
  | c :: t => if p c then some (t.dropWhile p) else none

/-- Drops characters until `stop` accepts what is left, or nothing is left. -/
def seek (stop : Text → Bool) : Text → Text
  | [] => []
  | c :: t => if stop (c :: t) then c :: t else seek stop t

/-- Drops characters until one of the given ones is first. -/
def seekAny (chars : List Char) (t : Text) : Text :=
  t.dropWhile fun c => !chars.contains c

/-- Drops characters until the text begins as given. -/
def seekTo (beginning : Text) : Text → Text := seek (startsWith beginning)

theorem strip?_eq_some {beginning t rest : Text} :
    strip? beginning t = some rest ↔ t = beginning ++ rest := by
  induction beginning generalizing t with
  | nil => simp [strip?, eq_comm]
  | cons b beginning ih =>
    cases t with
    | nil => simp [strip?]
    | cons c t =>
      by_cases h : b = c
      · simp [strip?, h, ih]
      · simp [strip?, h, eq_comm]

theorem seek_suffix (stop : Text → Bool) (t : Text) : seek stop t <:+ t := by
  induction t with
  | nil => simp [seek]
  | cons c t ih =>
    by_cases h : stop (c :: t)
    · simp [seek, h]
    · simpa [seek, h] using ih.trans (List.suffix_cons c t)

theorem seek_stops {stop : Text → Bool} {t : Text} (h : seek stop t ≠ []) :
    stop (seek stop t) = true := by
  induction t with
  | nil => simp [seek] at h
  | cons c t ih =>
    by_cases hc : stop (c :: t)
    · simp [seek, hc]
    · simp only [seek, hc] at h ⊢
      exact ih h

/-! ## Cutting -/

/-- The parts before and after the first occurrence of a character, if it occurs. -/
def cutAt? (c : Char) : Text → Option (Text × Text)
  | [] => none
  | d :: t => if d = c then some ([], t) else (cutAt? c t).map fun (a, b) => (d :: a, b)

/-- The parts before and after the last occurrence of a character, if it occurs. -/
def cutAtLast? (c : Char) : Text → Option (Text × Text)
  | [] => none
  | d :: t =>
    match cutAtLast? c t with
    | some (a, b) => some (d :: a, b)
    | none => if d = c then some ([], t) else none

/-- The maximal parts free of the character, in order; one more than it occurs. -/
def splitAt (c : Char) : Text → List Text
  | [] => [[]]
  | d :: t =>
    if d = c then [] :: splitAt c t
    else
      match splitAt c t with
      | [] => [[d]]
      | part :: parts => (d :: part) :: parts

/-- The decimal digits of a number. -/
def ofNat (n : Nat) : Text := Nat.toDigits 10 n

end Text

end HybridMarkup
