/-
The overlay is a map from places to versioned texts.

What can be asked of an overlay is to write, to remove, to read and to tell whether there is
something (`Request`), each time under some spelling of a path. A `VersionedMap` answers the same
requests and knows nothing of spellings: its keys are places, which are absolute paths in normal
form, and an entry is a version with a text. Overlay and map give the same replies to every
sequence of calls (`Overlay.replies_eq`), since one call keeps them alike
(`Overlay.Mirrors.answer`).

Two absolute spellings stand for one entry if and only if they have the same normal form, which is
said twice: the calls through the one are the calls through the other, and what is done through
the one can be noticed through the other (`Overlay.refines_versionedMap`).
-/
import HybridMarkup.Proofs.Updates
import Mathlib.Logic.Function.Basic

set_option autoImplicit false

namespace HybridMarkup

/-! ## Requests and replies -/

/-- What is asked of a store about one path. -/
inductive Request where
  | write (text : Text)
  | remove
  | read
  | contains
deriving DecidableEq, Repr

/-- What comes back. -/
inductive Reply where
  | written (stored : Except StoreError Document)
  | removed (existed : Bool)
  | found (document : Option Document)
  | contained (held : Bool)

/-- The document that comes back. -/
def Reply.document? : Reply → Option Document
  | .written stored => stored.toOption
  | .found document => document
  | .removed _ | .contained _ => none

/-- The replies to one call after another. -/
def replies {σ : Type} (answer : σ → Path → Request → Reply × σ) :
    σ → List (Path × Request) → List Reply
  | _, [] => []
  | s, (path, request) :: calls =>
    let (reply, s) := answer s path request
    reply :: replies answer s calls

/-- States that answer alike, and go on to states that do, give the same replies. -/
theorem replies_eq_of_alike {σ τ : Type} {answer : σ → Path → Request → Reply × σ}
    {answer' : τ → Path → Request → Reply × τ} (Alike : σ → τ → Prop)
    (step : ∀ {s t}, Alike s t → ∀ path request,
      (answer s path request).1 = (answer' t path request).1 ∧
        Alike (answer s path request).2 (answer' t path request).2)
    (calls : List (Path × Request)) :
    ∀ {s t}, Alike s t → replies answer s calls = replies answer' t calls := by
  induction calls with
  | nil => exact fun _ => rfl
  | cons call calls ih =>
    intro s t h
    obtain ⟨hreply, hnext⟩ := step h call.1 call.2
    exact congrArg₂ List.cons hreply (ih hnext)

/-- A call to an overlay. A write that fails leaves the overlay as it is. -/
def Overlay.answer (o : Overlay) (path : Path) : Request → Reply × Overlay
  | .write text =>
    match o.write path text with
    | .ok (d, o') => (.written (.ok d), o')
    | .error e => (.written (.error e), o)
  | .remove =>
    let (existed, o') := o.remove path
    (.removed existed, o')
  | .read => (.found (o.read? path), o)
  | .contains => (.contained (o.contains path), o)

/-! ## The map -/

/-- An absolute path in normal form. -/
structure Place where
  path : Path
  absolute : path.isAbsolute = true
  normal : path.normalize = path
deriving DecidableEq

/-- The place that an absolute path spells. -/
def Path.place? (p : Path) : Option Place :=
  if h : p.isAbsolute = true then
    some ⟨p.normalize, Path.isAbsolute_normalize h, Path.normalize_normalize p⟩
  else none

/-- Texts with their versions, by places. -/
abbrev VersionedMap : Type := Place → Option (Nat × Text)

namespace VersionedMap

/-- The map without entries. -/
def empty : VersionedMap := fun _ => none

/-- The entry at the place that a path spells. -/
def entry? (m : VersionedMap) (path : Path) : Option (Nat × Text) := path.place?.bind m

/-- Writes a text at a place: the first one has version 1, another one than before has the next
version, and the same one changes nothing. -/
def write (m : VersionedMap) (place : Place) (text : Text) : (Nat × Text) × VersionedMap :=
  match m place with
  | none => ((1, text), Function.update m place (some (1, text)))
  | some (version, before) =>
    if text = before then ((version, before), m)
    else ((version + 1, text), Function.update m place (some (version + 1, text)))

/-- A call to the map over a disk. What has no entry is read from the disk, at version 0, and gets
no entry by that. -/
def answer (disk : Disk) (m : VersionedMap) (path : Path) : Request → Reply × VersionedMap
  | .write text =>
    match path.place? with
    | none => (.written (.error (.relativePath path)), m)
    | some place =>
      let ((version, text), m') := m.write place text
      (.written (.ok ⟨place.path, version, text⟩), m')
  | .remove =>
    match path.place? with
    | none => (.removed false, m)
    | some place => (.removed (m place).isSome, Function.update m place none)
  | .read =>
    match m.entry? path with
    | some (version, text) => (.found (some ⟨path.normalize, version, text⟩), m)
    | none =>
      (.found ((disk.read? path.normalize).map fun text => ⟨path.normalize, 0, text⟩), m)
  | .contains => (.contained (m.entry? path).isSome, m)

end VersionedMap

theorem Path.place?_eq_some {p : Path} (h : p.isAbsolute = true) :
    ∃ place, p.place? = some place ∧ place.path = p.normalize :=
  ⟨_, dif_pos h, rfl⟩

theorem Path.place?_eq_none {p : Path} (h : ¬p.isAbsolute = true) : p.place? = none := dif_neg h

theorem Path.path_of_place? {p : Path} {place : Place} (h : p.place? = some place) :
    p.isAbsolute = true ∧ place.path = p.normalize := by
  unfold Path.place? at h
  split at h
  · next habsolute =>
    rw [← Option.some.inj h]
    exact ⟨habsolute, rfl⟩
  · simp at h

theorem Place.ext_path {place place' : Place} (h : place.path = place'.path) : place = place' := by
  cases place
  cases place'
  cases h
  rfl

/-- A path finds the entry that was changed last if its normal form is the place of that entry. -/
theorem VersionedMap.entry?_update (m : VersionedMap) (place : Place) (e : Option (Nat × Text))
    (q : Path) :
    entry? (Function.update m place e) q = if q.normalize = place.path then e else m.entry? q := by
  unfold entry?
  by_cases habsolute : q.isAbsolute = true
  · obtain ⟨there, hthere, hpath⟩ := Path.place?_eq_some habsolute
    rw [hthere, Option.bind_some, Option.bind_some, Function.update_apply, ← hpath]
    exact if_congr ⟨congrArg Place.path, Place.ext_path⟩ rfl rfl
  -- a relative path is no place
  · rw [Path.place?_eq_none habsolute, if_neg]
    · rfl
    · intro heq
      have habsolute' := place.absolute
      rw [← heq, (Path.names_normalize q).1] at habsolute'
      exact habsolute habsolute'

/-- The versions of a map are bounded. -/
def VersionedMap.Within (n : Nat) (m : VersionedMap) : Prop :=
  ∀ place e, m place = some e → e.1 ≤ n

theorem VersionedMap.Within.update {n : Nat} {m : VersionedMap} (h : m.Within n) (place : Place)
    {e : Option (Nat × Text)} (he : ∀ x, e = some x → x.1 ≤ n + 1) :
    Within (n + 1) (Function.update m place e) := by
  intro q x hx
  rw [Function.update_apply] at hx
  split at hx
  · exact he x hx
  · exact Nat.le_succ_of_le (h q x hx)

/-- One call raises no version by more than one. -/
theorem VersionedMap.Within.answer {n : Nat} {m : VersionedMap} (h : m.Within n) (disk : Disk)
    (path : Path) (request : Request) :
    (∀ d, (m.answer disk path request).1.document? = some d → d.version ≤ n + 1) ∧
      (m.answer disk path request).2.Within (n + 1) := by
  have hmore : m.Within (n + 1) := fun place e he => Nat.le_succ_of_le (h place e he)
  cases request with
  | write text =>
    unfold VersionedMap.answer
    dsimp only
    cases path.place? with
    | none => exact ⟨fun d hd => by simp [Reply.document?, Except.toOption] at hd, hmore⟩
    | some place =>
      suffices hwrite : (m.write place text).1.1 ≤ n + 1 ∧ (m.write place text).2.Within (n + 1) by
        refine ⟨fun d hd => ?_, hwrite.2⟩
        rw [← Option.some.inj hd]
        exact hwrite.1
      unfold VersionedMap.write
      cases hentry : m place with
      | none =>
        refine ⟨Nat.le_add_left 1 n, h.update place fun x hx => ?_⟩
        rw [← Option.some.inj hx]
        exact Nat.le_add_left 1 n
      | some e =>
        have hbefore := h place e hentry
        dsimp only
        split
        · exact ⟨Nat.le_succ_of_le hbefore, hmore⟩
        · refine ⟨Nat.succ_le_succ hbefore, h.update place fun x hx => ?_⟩
          rw [← Option.some.inj hx]
          exact Nat.succ_le_succ hbefore
  | remove =>
    unfold VersionedMap.answer
    dsimp only
    cases path.place? with
    | none => exact ⟨fun d hd => by simp [Reply.document?] at hd, hmore⟩
    | some place =>
      exact ⟨fun d hd => by simp [Reply.document?] at hd, h.update place fun x hx => by simp at hx⟩
  | read =>
    unfold VersionedMap.answer
    dsimp only
    cases hentry : m.entry? path with
    | some e =>
      refine ⟨fun d hd => ?_, hmore⟩
      obtain ⟨place, -, hplace⟩ := Option.bind_eq_some_iff.1 hentry
      rw [← Option.some.inj hd]
      exact hmore place e hplace
    | none =>
      refine ⟨fun d hd => ?_, hmore⟩
      obtain ⟨text, -, rfl⟩ := Option.map_eq_some_iff.1 hd
      exact Nat.zero_le _
  | contains => exact ⟨fun d hd => by simp [VersionedMap.answer, Reply.document?] at hd, hmore⟩

/-- The versions in the replies are not greater than the number of calls. -/
theorem VersionedMap.version_le (disk : Disk) (calls : List (Path × Request)) :
    ∀ {n : Nat} {m : VersionedMap}, m.Within n → ∀ reply ∈ replies (answer disk) m calls,
      ∀ d, reply.document? = some d → d.version ≤ n + calls.length := by
  induction calls with
  | nil => exact fun _ _ hreply => absurd hreply List.not_mem_nil
  | cons call calls ih =>
    intro n m h reply hreply d hd
    obtain ⟨hfirst, hnext⟩ := h.answer disk call.1 call.2
    rw [List.length_cons]
    rcases List.mem_cons.1 hreply with rfl | hreply
    · have := hfirst d hd
      omega
    · have := ih hnext reply hreply d hd
      omega

/-! ## The map and the overlay -/

namespace Overlay

variable {o : Overlay} {disk : Disk} {m : VersionedMap} {p q path : Path}

/-- An overlay holds over a disk what a map has entries for. -/
structure Mirrors (o : Overlay) (disk : Disk) (m : VersionedMap) : Prop where
  disk_eq : o.disk = disk
  held : ∀ path : Path, o.held? path.normalize
    = (m.entry? path).map fun e => ⟨path.normalize, e.1, e.2⟩

theorem mirrors_empty (disk : Disk) : Mirrors { disk } disk .empty := by
  refine ⟨rfl, fun path => ?_⟩
  rw [show VersionedMap.empty.entry? path = none from Option.bind_fun_none _]
  rfl

/-- An entry is put into both. -/
theorem Mirrors.put (h : o.Mirrors disk m) (place : Place) (version : Nat) (text : Text) :
    (o.put ⟨place.path, version, text⟩).Mirrors disk
      (Function.update m place (some (version, text))) := by
  refine ⟨h.disk_eq, fun q => ?_⟩
  rw [held?_put, VersionedMap.entry?_update, h.held q]
  split
  · next heq => rw [heq, Option.map_some]
  · rfl

/-- An entry is taken out of both. -/
theorem Mirrors.drop (h : o.Mirrors disk m) (place : Place) :
    (o.drop place.path).Mirrors disk (Function.update m place none) := by
  refine ⟨h.disk_eq, fun q => ?_⟩
  rw [held?_drop, VersionedMap.entry?_update, h.held q]
  split <;> rfl

theorem Mirrors.held_place (h : o.Mirrors disk m) {place : Place}
    (hplace : path.place? = some place) :
    o.held? path.normalize = (m place).map fun e => ⟨place.path, e.1, e.2⟩ := by
  rw [h.held path, VersionedMap.entry?, hplace, Option.bind_some,
    (Path.path_of_place? hplace).2]

theorem write_relative (o : Overlay) (h : ¬path.isAbsolute = true) (text : Text) :
    o.write path text = .error (.relativePath path) := if_neg h

/-- A write at a place does the same in both. -/
theorem Mirrors.write (h : o.Mirrors disk m) {place : Place} (hplace : path.place? = some place)
    (text : Text) :
    ∃ o', o.write path text
        = .ok (⟨place.path, (m.write place text).1.1, (m.write place text).1.2⟩, o') ∧
      o'.Mirrors disk (m.write place text).2 := by
  obtain ⟨habsolute, hpath⟩ := Path.path_of_place? hplace
  have hheld := h.held_place hplace
  obtain ⟨d, o', hwrite, -⟩ := o.write_absolute habsolute text
  have hwritten := written_of_write hwrite
  rw [hwrite]
  rw [← hpath] at hwritten hheld
  unfold VersionedMap.write
  cases hentry : m place with
  | none =>
    rw [hentry, Option.map_none] at hheld
    cases hwritten with
    | kept hsome _ => simp [hheld] at hsome
    | replaced hsome _ => simp [hheld] at hsome
    | first _ => exact ⟨_, rfl, h.put place 1 text⟩
  | some entry =>
    obtain ⟨version, before⟩ := entry
    rw [hentry, Option.map_some] at hheld
    dsimp only
    cases hwritten with
    | kept hsome htext =>
      obtain rfl := Option.some.inj (hheld.symm.trans hsome)
      rw [if_pos (Eq.symm htext)]
      exact ⟨o, rfl, h⟩
    | replaced hsome htext =>
      obtain rfl := Option.some.inj (hheld.symm.trans hsome)
      rw [if_neg (Ne.symm htext)]
      exact ⟨_, rfl, h.put place (version + 1) text⟩
    | first hnone => simp [hheld] at hnone

/-- **One call.** The replies are the same, and so is what is held afterwards. -/
theorem Mirrors.answer (h : o.Mirrors disk m) (path : Path) (request : Request) :
    (o.answer path request).1 = (m.answer disk path request).1 ∧
      (o.answer path request).2.Mirrors disk (m.answer disk path request).2 := by
  cases request with
  | write text =>
    unfold Overlay.answer VersionedMap.answer
    dsimp only
    by_cases habsolute : path.isAbsolute = true
    · obtain ⟨place, hplace, -⟩ := Path.place?_eq_some habsolute
      obtain ⟨o', hwrite, hmirrors⟩ := h.write hplace text
      rw [hwrite, hplace]
      exact ⟨rfl, hmirrors⟩
    · rw [write_relative o habsolute, Path.place?_eq_none habsolute]
      exact ⟨rfl, h⟩
  | remove =>
    unfold Overlay.answer VersionedMap.answer remove Overlay.contains
    dsimp only
    by_cases habsolute : path.isAbsolute = true
    · obtain ⟨place, hplace, hpath⟩ := Path.place?_eq_some habsolute
      rw [h.held_place hplace, hplace, Option.isSome_map, ← hpath]
      exact ⟨rfl, h.drop place⟩
    · have hnone : o.held? path.normalize = none := by
        rw [h.held path, VersionedMap.entry?, Path.place?_eq_none habsolute]
        rfl
      rw [hnone, Path.place?_eq_none habsolute]
      refine ⟨rfl, h.disk_eq, fun q => ?_⟩
      rw [held?_drop]
      split
      · next heq => rw [← h.held q, heq, hnone]
      · exact h.held q
  | read =>
    unfold Overlay.answer VersionedMap.answer
    dsimp only
    rw [read?_eq, h.held path, h.disk_eq]
    cases m.entry? path <;> exact ⟨rfl, h⟩
  | contains =>
    unfold Overlay.answer VersionedMap.answer Overlay.contains
    dsimp only
    rw [h.held path, Option.isSome_map]
    exact ⟨rfl, h⟩

/-- **All calls.** An overlay without documents replies to every sequence of calls as the map
without entries does. -/
theorem replies_eq (disk : Disk) (calls : List (Path × Request)) :
    replies Overlay.answer { disk } calls
      = replies (VersionedMap.answer disk) .empty calls :=
  replies_eq_of_alike (fun o m => o.Mirrors disk m) Mirrors.answer calls (mirrors_empty disk)

/-- No version is greater than the number of calls. -/
theorem version_le_calls (disk : Disk) (calls : List (Path × Request)) :
    ∀ reply ∈ replies Overlay.answer { disk } calls, ∀ d, reply.document? = some d →
      d.version ≤ calls.length := by
  intro reply hreply d hd
  rw [replies_eq] at hreply
  have hnone : VersionedMap.empty.Within 0 := fun place e he => by simp [VersionedMap.empty] at he
  simpa using VersionedMap.version_le disk calls hnone reply hreply d hd

/-- **With fewer calls than there are versions** the counter does not come to its end. -/
theorem version_lt_limit (disk : Disk) {calls : List (Path × Request)}
    (h : calls.length < Document.versionLimit) :
    ∀ reply ∈ replies Overlay.answer { disk } calls, ∀ d, reply.document? = some d →
      d.version < Document.versionLimit := by
  intro reply hreply d hd
  exact Nat.lt_of_le_of_lt (version_le_calls disk calls reply hreply d hd) h

/-! ## Spellings of one entry -/

theorem disk_answer (o : Overlay) (path : Path) (request : Request) :
    (o.answer path request).2.disk = o.disk := by
  cases request with
  | write text =>
    unfold answer
    dsimp only
    split
    · next hwrite => exact (written_of_write hwrite).disk_eq
    · rfl
  | remove | read | contains => rfl

/-- A call leaves alone what is held in other places. -/
theorem held?_answer (o : Overlay) (request : Request) (h : q ≠ path.normalize) :
    (o.answer path request).2.held? q = o.held? q := by
  cases request with
  | write text =>
    unfold answer
    dsimp only
    split
    · next hwrite => rw [(written_of_write hwrite).held?_eq, if_neg h]
    · rfl
  | remove => exact (held?_remove o path q).trans (if_neg h)
  | read | contains => rfl

theorem write_congr (o : Overlay) (habsolute : p.isAbsolute = true)
    (habsolute' : q.isAbsolute = true) (h : p.normalize = q.normalize) (text : Text) :
    o.write p text = o.write q text := by
  unfold write
  rw [if_pos habsolute, if_pos habsolute', h]

/-- A reply depends on what is held in the place and on the disk. -/
theorem reply_congr {o' : Overlay} (hdisk : o'.disk = o.disk)
    (hheld : o'.held? path.normalize = o.held? path.normalize) (request : Request) :
    (o'.answer path request).1 = (o.answer path request).1 := by
  cases request with
  | write text =>
    by_cases habsolute : path.isAbsolute = true
    · unfold answer write
      dsimp only
      rw [if_pos habsolute, if_pos habsolute, hheld]
      cases o.held? path.normalize with
      | none => rfl
      | some d =>
        dsimp only
        by_cases htext : d.text = text
        · rw [if_pos htext, if_pos htext]
        · rw [if_neg htext, if_neg htext]
    · unfold answer
      dsimp only
      rw [write_relative o habsolute, write_relative o' habsolute]
  | remove =>
    show Reply.removed (o'.contains path) = .removed (o.contains path)
    rw [contains, contains, hheld]
  | read =>
    show Reply.found (o'.read? path) = .found (o.read? path)
    rw [read?_eq, read?_eq, hheld, hdisk]
  | contains =>
    show Reply.contained (o'.contains path) = .contained (o.contains path)
    rw [contains, contains, hheld]

/-- What has been written is read under every spelling. -/
theorem answer_read_of_write (habsolute : p.isAbsolute = true) (h : p.normalize = q.normalize)
    (o : Overlay) (text : Text) :
    ∃ version, ((o.answer p (.write text)).2.answer q .read).1
      = .found (some ⟨q.normalize, version, text⟩) := by
  obtain ⟨d, o', hwrite, hstored⟩ := o.write_absolute habsolute text
  obtain ⟨-, hpath, htext⟩ := write_ok hwrite
  refine ⟨d.version, ?_⟩
  unfold answer
  dsimp only
  rw [hwrite]
  dsimp only
  rw [read?_eq, ← h, hstored.held, Option.some_or, ← hpath, ← htext]

/-- **Calls through two absolute spellings are the same calls** if and only if the spellings have
the same normal form. -/
theorem answer_eq_iff (o : Overlay) (habsolute : p.isAbsolute = true)
    (habsolute' : q.isAbsolute = true) :
    (∀ request, o.answer p request = o.answer q request) ↔ p.normalize = q.normalize := by
  constructor
  · intro hsame
    -- a document tells its place
    obtain ⟨d, o', hwrite, -⟩ := o.write_absolute habsolute []
    obtain ⟨d', o'', hwrite', -⟩ := o.write_absolute habsolute' []
    have hreply := congrArg Prod.fst (hsame (.write []))
    unfold answer at hreply
    dsimp only at hreply
    rw [hwrite, hwrite'] at hreply
    obtain rfl := Except.ok.inj (Reply.written.inj hreply)
    rw [← (write_ok hwrite).2.1, (write_ok hwrite').2.1]
  · intro h request
    cases request with
    | write text =>
      unfold answer
      dsimp only
      rw [write_congr o habsolute habsolute' h]
    | remove | contains => simp [answer, remove, contains, h]
    | read =>
      show (Reply.found (o.read? p), o) = (Reply.found (o.read? q), o)
      rw [read?_eq, read?_eq, h]

/-- **What is done through one spelling goes unnoticed through another** if and only if they have
different normal forms. -/
theorem reply_eq_iff (o : Overlay) (habsolute : p.isAbsolute = true) :
    (∀ request request',
        ((o.answer p request).2.answer q request').1 = (o.answer q request').1) ↔
      p.normalize ≠ q.normalize := by
  constructor
  · intro hsame h
    -- a text that is longer than the one that is there
    obtain ⟨version, hread⟩ := answer_read_of_write habsolute h o
      (' ' :: ((o.read? q).map Document.text).getD [])
    have hreply : Reply.found _ = .found _ := hread.symm.trans (hsame _ .read)
    have hlength := congrArg (fun d => ((d.map Document.text).getD []).length)
      (Reply.found.inj hreply)
    simp at hlength
  · intro h request request'
    exact reply_congr (disk_answer o p request) (held?_answer o request (Ne.symm h)) request'

/-- **The overlay refines the versioned map.** The replies to every sequence of calls are those of
the map, and all versions in them have room in a counter of 32 bits if there are fewer than 2 ^ 31
calls. Two absolute spellings act on the same entry if and only if they have the same normal
form. -/
theorem refines_versionedMap :
    (∀ (disk : Disk) (calls : List (Path × Request)),
      replies Overlay.answer { disk } calls = replies (VersionedMap.answer disk) .empty calls ∧
        (calls.length < Document.versionLimit →
          ∀ reply ∈ replies Overlay.answer { disk } calls, ∀ d, reply.document? = some d →
            d.version < Document.versionLimit)) ∧
    ∀ (o : Overlay) (p q : { path : Path // path.isAbsolute = true }),
      ((∀ request, o.answer p.1 request = o.answer q.1 request) ↔
        p.1.normalize = q.1.normalize) ∧
      ((∀ request request', ((o.answer p.1 request).2.answer q.1 request').1
          = (o.answer q.1 request').1) ↔ p.1.normalize ≠ q.1.normalize) :=
  ⟨fun disk calls => ⟨replies_eq disk calls, version_lt_limit disk⟩,
    fun o p q => ⟨answer_eq_iff o p.2 q.2, reply_eq_iff o p.2⟩⟩

end Overlay

end HybridMarkup
