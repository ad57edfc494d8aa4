/-
The names of directives, taken apart and put together again.

A name is cut at its first colon, unless a sign stands for what would be in front of it, and behind
that at every period. Nothing is dropped: an empty argument is not the same as none, and an empty
modifier is a modifier. So the parts spell the name (`Directive.spelled`), in the form in which it was
written, and the two forms of one directive have the same parts.

That keys tell directives apart comes down to one fact: there is no colon in the name of a directive,
so the first colon behind it is that of the argument (`Directive.shownArg_unique`).

Main statement: `Directive.names_lossless`.
-/
import HybridMarkup.Directive
import HybridMarkup.Scanner.Template
import Mathlib.Data.List.TakeWhile

set_option autoImplicit false

namespace HybridMarkup

open Text

/-- The parts of a text are the text, if the character is put back in front of each but the first. -/
theorem Text.exists_splitAt (c : Char) (t : Text) :
    ∃ first parts, splitAt c t = first :: parts ∧ first ++ parts.flatMap (c :: ·) = t := by
  induction t with
  | nil => exact ⟨[], [], rfl, rfl⟩
  | cons d t ih =>
    obtain ⟨first, parts, hsplit, hjoined⟩ := ih
    by_cases hd : d = c
    · refine ⟨[], first :: parts, ?_, ?_⟩
      · rw [splitAt, if_pos hd, hsplit]
      · rw [hd, List.nil_append, List.flatMap_cons, List.cons_append, hjoined]
    · refine ⟨d :: first, parts, ?_, ?_⟩
      · rw [splitAt, if_neg hd, hsplit]
      · rw [List.cons_append, hjoined]

namespace Directive

/-! ## How a name is spelled -/

/-- The sign for a directive of the given name, if there is one. -/
def sign? (name : Text) : Option Char :=
  [':', '@', '#'].find? fun c => ofSign? c = some name

/-- The argument behind its colon, if there is an argument. -/
def shownArg : Option Text → Text
  | some arg => ':' :: arg
  | none => []

/-- The name in the form in which it was written: its sign with the argument, or name and argument
in full, and the modifiers behind either. -/
def spelled (d : Directive) : Text :=
  (if d.isShorthand then (sign? d.name).toList ++ d.arg.getD []
    else "v-".toList ++ d.name ++ shownArg d.arg) ++ d.modifiers.flatMap ('.' :: ·)

theorem sign?_of_ofSign? {c : Char} {name : Text} (h : ofSign? c = some name) :
    sign? name = some c := by
  unfold ofSign? at h
  split at h
  · next hc => rw [← Option.some.inj h, hc]; decide
  · split at h
    · next hc => rw [← Option.some.inj h, hc]; decide
    · split at h
      · next hc => rw [← Option.some.inj h, hc]; decide
      · simp at h

variable {name rest : Text}

/-- The sign stands for the name, and all that follows is argument and modifiers. -/
theorem spelled_sign {c : Char} (h : ofSign? c = some name) (rest : Text) :
    (ofParts name rest true true).spelled = c :: rest := by
  obtain ⟨first, parts, hsplit, hjoined⟩ := exists_splitAt '.' rest
  simp [spelled, ofParts, hsplit, sign?_of_ofSign? h, hjoined]

/-- Behind a colon there is an argument, be it empty. -/
theorem spelled_arg (name rest : Text) :
    (ofParts name rest true false).spelled = "v-".toList ++ (name ++ ':' :: rest) := by
  obtain ⟨first, parts, hsplit, hjoined⟩ := exists_splitAt '.' rest
  simp [spelled, ofParts, shownArg, hsplit, hjoined]

/-- Without an argument nothing stands in front of the first period. -/
theorem spelled_bare (name : Text) (h : ∀ c ∈ rest.head?, c = '.') :
    (ofParts name rest false false).spelled = "v-".toList ++ (name ++ rest) := by
  obtain ⟨first, parts, hsplit, hjoined⟩ := exists_splitAt '.' rest
  have hfirst : first = [] := by
    cases rest with
    | nil => exact (List.cons.inj hsplit).1.symm
    | cons c rest =>
      rw [h c rfl, splitAt, if_pos rfl] at hsplit
      exact (List.cons.inj hsplit).1.symm
  rw [hfirst, List.nil_append] at hjoined
  simp [spelled, ofParts, shownArg, hsplit, hjoined]

/-! ## How a name is read -/

/-- The long form is cut at its first colon, if that stands in front of the first period. -/
theorem ofLongForm_cases (body : Text) :
    ∃ name rest, ':' ∉ name ∧
      (body = name ++ ':' :: rest ∧ ofLongForm body = ofParts name rest true false ∨
        body = name ++ rest ∧ (∀ c ∈ rest.head?, c = '.') ∧
          ofLongForm body = ofParts name rest false false) := by
  have hbody := List.takeWhile_append_dropWhile (p := fun c => c != ':' && c != '.') (l := body)
  have hname : ':' ∉ body.takeWhile fun c => c != ':' && c != '.' := fun hmem => by
    simpa using List.mem_takeWhile_imp hmem
  unfold ofLongForm
  split
  · next rest hrest =>
    rw [hrest] at hbody
    exact ⟨_, rest, hname, .inl ⟨hbody.symm, rfl⟩⟩
  · next hcolon =>
    refine ⟨_, _, hname, .inr ⟨hbody.symm, fun c hc => ?_, rfl⟩⟩
    -- where the name ends there is a colon or a period
    obtain ⟨tail, htail⟩ := List.head?_eq_some_iff.1 hc
    have hstop := List.head?_dropWhile_not (fun c => c != ':' && c != '.') body
    rw [htail] at hstop
    have hne : c ≠ ':' := fun heq => hcolon tail (heq ▸ htail)
    simpa [hne] using hstop

theorem ofRaw_sign {c : Char} (h : ofSign? c = some name) (rest : Text) :
    ofRaw (c :: rest) = ofParts name rest true true := by
  simp only [ofRaw, h]

theorem ofRaw_long (body : Text) : ofRaw ("v-".toList ++ body) = ofLongForm body := by
  simp [ofRaw, ofSign?, strip?]

/-- A directive is written with a sign or in its long form. -/
theorem exists_form {raw : Text} (h : isDirectiveName raw = true) :
    (∃ c name rest, ofSign? c = some name ∧ raw = c :: rest) ∨
      ∃ body, raw = "v-".toList ++ body := by
  unfold isDirectiveName at h
  split at h
  · next body => exact .inr ⟨body, rfl⟩
  · next c rest _ =>
    simp only [Bool.or_eq_true, beq_iff_eq] at h
    obtain (rfl | rfl) | rfl := h
    · exact .inl ⟨_, _, rest, rfl, rfl⟩
    · exact .inl ⟨_, _, rest, rfl, rfl⟩
    · exact .inl ⟨_, _, rest, rfl, rfl⟩
  · simp at h

/-- Whatever is read as a directive, its name has no colon. -/
theorem not_mem_name (raw : Text) : ':' ∉ (ofRaw raw).name := by
  have hlong (body : Text) : ':' ∉ (ofLongForm body).name := by
    obtain ⟨name, rest, hname, ⟨_, heq⟩ | ⟨_, _, heq⟩⟩ := ofLongForm_cases body
    · rwa [heq]
    · rwa [heq]
  unfold ofRaw
  split
  · exact hlong []
  · split
    · next c rest name hsign =>
      unfold ofSign? at hsign
      show ':' ∉ name
      split at hsign
      · rw [← Option.some.inj hsign]; decide
      · split at hsign
        · rw [← Option.some.inj hsign]; decide
        · split at hsign
          · rw [← Option.some.inj hsign]; decide
          · simp at hsign
    · exact hlong _

/-! ## Keys -/

theorem key_eq (d : Directive) : d.key = "v-".toList ++ (d.name ++ shownArg d.arg) := by
  unfold key
  split
  · next arg harg => simp [harg, shownArg]
  · next harg => simp [harg, shownArg]

/-- **The argument begins at the first colon**, so name and argument can be told apart. -/
theorem shownArg_unique {name name' : Text} {arg arg' : Option Text} (hname : ':' ∉ name)
    (hname' : ':' ∉ name') (h : name ++ shownArg arg = name' ++ shownArg arg') :
    name = name' ∧ arg = arg' := by
  induction name generalizing name' with
  | nil =>
    cases name' with
    | nil => cases arg <;> cases arg' <;> simp_all [shownArg]
    | cons c name' =>
      cases arg with
      | none => simp [shownArg] at h
      | some arg =>
        obtain ⟨rfl, _⟩ := List.cons.inj h
        simp at hname'
  | cons c name ih =>
    cases name' with
    | nil =>
      cases arg' with
      | none => simp [shownArg] at h
      | some arg' =>
        obtain ⟨rfl, _⟩ := List.cons.inj h
        simp at hname
    | cons c' name' =>
      obtain ⟨rfl, hrest⟩ := List.cons.inj h
      obtain ⟨rfl, rfl⟩ := ih (fun hmem => hname (List.mem_cons_of_mem _ hmem))
        (fun hmem => hname' (List.mem_cons_of_mem _ hmem)) hrest
      exact ⟨rfl, rfl⟩

/-- **The name of a directive is read without a loss.** What is read from it spells it; two of them
have the same key just if they have the same name and the same argument; and a sign reads as what it
stands for, but for the note that it was a sign. -/
theorem names_lossless :
    (∀ raw, isDirectiveName raw = true → (ofRaw raw).spelled = raw) ∧
      (∀ raw raw', (ofRaw raw).key = (ofRaw raw').key ↔
        (ofRaw raw).name = (ofRaw raw').name ∧ (ofRaw raw).arg = (ofRaw raw').arg) ∧
      ∀ s, ofRaw ("v-bind:".toList ++ s) = { ofRaw (':' :: s) with isShorthand := false } ∧
        ofRaw ("v-on:".toList ++ s) = { ofRaw ('@' :: s) with isShorthand := false } ∧
        ofRaw ("v-slot:".toList ++ s) = { ofRaw ('#' :: s) with isShorthand := false } := by
  refine ⟨fun raw h => ?_, fun raw raw' => ⟨fun h => ?_, fun h => ?_⟩, fun s => ?_⟩
  · obtain ⟨c, name, rest, hsign, rfl⟩ | ⟨body, rfl⟩ := exists_form h
    · rw [ofRaw_sign hsign, spelled_sign hsign]
    · rw [ofRaw_long]
      obtain ⟨name, rest, _, ⟨rfl, heq⟩ | ⟨rfl, hdot, heq⟩⟩ := ofLongForm_cases body
      · rw [heq, spelled_arg]
      · rw [heq, spelled_bare name hdot]
  · rw [key_eq, key_eq] at h
    exact shownArg_unique (not_mem_name raw) (not_mem_name raw') (List.append_cancel_left h)
  · rw [key_eq, key_eq, h.1, h.2]
  · have hlong (name : Text) (hname : (name.all fun c => c != ':' && c != '.') = true) :
        ofRaw ("v-".toList ++ (name ++ ':' :: s)) = ofParts name s true false := by
      have h := List.all_eq_true.1 hname
      rw [ofRaw_long, ofLongForm, List.dropWhile_append_of_pos h, List.takeWhile_append_of_pos h]
      simp
    exact ⟨hlong "bind".toList (by decide), hlong "on".toList (by decide),
      hlong "slot".toList (by decide)⟩

/-- Neither the name of a directive nor its first modifier has to be anything. -/
theorem names_lossless_empty_parts :
    let raw := "v-:x..y".toList
    isDirectiveName raw = true ∧ (ofRaw raw).spelled = raw ∧
      (ofRaw raw).name = [] ∧ (ofRaw raw).modifiers = [[], ['y']] :=
  ⟨by decide, names_lossless.1 _ (by decide), by decide, by decide⟩

end Directive

end HybridMarkup
