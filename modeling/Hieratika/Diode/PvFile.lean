import Hieratika.Foundations.Runs
import Mathlib.Data.List.Basic

/-!
# The file of PV names

Both ends of the diode read the names of the PVs from an XML file with a function `GetVariable` of their
own; the two are the same. It is no XML parser: it reads up to a `<` or a `>` and throws spaces and
newlines away, until there is something between a `>` and the next `<`.

`File::GetToken` is a parameter; `Tokens.Reads` is what is known about it.

## What is proved

On a file with the entries `<si><t>NAME</t></si>` between a header tag and a closing tag, with any
spaces and newlines between the tags, calls of `GetVariable` return the names in their order, and
then false (`returns_names`).
-/

namespace Hieratika.Diode

open Foundations

/-! ### `GetVariable` -/

/-- `File::GetToken`: what it returns, the token, and what is left of the file. -/
structure Tokens where
  getToken : (terminator : UInt8) → (skipCharacters file : List UInt8) → Bool × List UInt8 × List UInt8

/-- Skip characters are dropped, and the token ends at the first terminator; at the end of the file
there is no token. -/
structure Tokens.Reads (T : Tokens) : Prop where
  stops : ∀ terminator skipCharacters token file, terminator ∉ skipCharacters → terminator ∉ token →
    T.getToken terminator skipCharacters (token ++ terminator :: file) =
      (true, token.filter fun c => !skipCharacters.contains c, file)
  eof : ∀ terminator skipCharacters file, terminator ∉ skipCharacters → (∀ c ∈ file, c ∈ skipCharacters) →
    T.getToken terminator skipCharacters file = (false, [], [])

/-- `<`. -/
def lessThan : UInt8 := 60

/-- `>`. -/
def greaterThan : UInt8 := 62

/-- `" \n"`. -/
def blanks : List UInt8 := [32, 10]

/-- The state of the loop in `GetVariable`. -/
structure Scanning where
  file : List UInt8
  variable_ : List UInt8
  ret : Bool

section

variable (T : Tokens)

/-- A turn of the loop. -/
def scanningTurn (s : Scanning) : Turn Scanning Scanning :=
  if s.variable_ = [] ∧ s.ret = true then
    let (ret, _, file) := T.getToken greaterThan blanks s.file
    let (ret', variable_, file) := T.getToken lessThan blanks file
    .again ⟨file, variable_, ret && ret'⟩
  else .leave s

/-- `GetVariable`, for a variable that is empty: what it returns, the variable, and what is left of
the file. -/
def GetVariable (file : List UInt8) (res : Bool × List UInt8 × List UInt8) : Prop :=
  let (ret, _, file) := T.getToken lessThan blanks file
  ∃ s, Ends (scanningTurn T) ⟨file, [], ret⟩ s ∧
    let (ret, _, file) := T.getToken greaterThan [] s.file
    res = (s.ret && ret, s.variable_, file)

/-- Calls of `GetVariable` return these names, and then false. -/
inductive Returns : List UInt8 → List (List UInt8) → Prop where
  | stop {file variable_ rest : List UInt8} : GetVariable T file (false, variable_, rest) → Returns file []
  | next {file variable_ rest : List UInt8} {names : List (List UInt8)} :
      GetVariable T file (true, variable_, rest) →
      Returns rest names → Returns file (variable_ :: names)

end

/-! ### The file -/

/-- Spaces and newlines. -/
abbrev Gap := {ws : List UInt8 // ∀ c ∈ ws, c ∈ blanks}

/-- What stands in a tag, without its brackets. -/
abbrev Content := {cs : List UInt8 // lessThan ∉ cs ∧ greaterThan ∉ cs}

/-- A name of a PV. -/
abbrev PvName := {name : List UInt8 // name ≠ [] ∧ ∀ c ∈ name, c ≠ lessThan ∧ c ≠ greaterThan ∧ c ∉ blanks}

def tag (content : Content) : List UInt8 := lessThan :: (content.1 ++ [greaterThan])

/-- `<si>`. -/
def siTag : Content := ⟨[115, 105], by decide⟩

/-- `</si>`. -/
def siEndTag : Content := ⟨[47, 115, 105], by decide⟩

/-- `<t>`. -/
def tTag : Content := ⟨[116], by decide⟩

/-- `</t>`. -/
def tEndTag : Content := ⟨[47, 116], by decide⟩

/-- An entry, with the gaps before its tags. -/
structure Entry where
  beforeSi : Gap
  beforeT : Gap
  name : PvName
  beforeSiEnd : Gap

def Entry.text (e : Entry) : List UInt8 :=
  e.beforeSi.1 ++ tag siTag ++ e.beforeT.1 ++ tag tTag ++ e.name.1 ++ tag tEndTag ++ e.beforeSiEnd.1 ++
    tag siEndTag

/-- The file: the header tag, the entries, and the closing tag. -/
structure PvFile where
  beforeHeader : Gap
  header : Content
  entries : List Entry
  beforeClosing : Gap
  closing : Content
  afterClosing : Gap

def PvFile.text (f : PvFile) : List UInt8 :=
  f.beforeHeader.1 ++ tag f.header ++ f.entries.flatMap Entry.text ++ f.beforeClosing.1 ++
    tag f.closing ++ f.afterClosing.1

def PvFile.names (f : PvFile) : List (List UInt8) := f.entries.map fun e => e.name.1

variable {T : Tokens} {file : List UInt8} {res res' : Bool × List UInt8 × List UInt8}

/-- `GetVariable` has one result. -/
theorem GetVariable.unique (h : GetVariable T file res) (h' : GetVariable T file res') : res = res' := by
  obtain ⟨s, hs, rfl⟩ := h
  obtain ⟨s', hs', rfl⟩ := h'
  rw [hs.unique hs']

/-! ### Tokens -/

theorem filter_gap (g : Gap) : (g.1.filter fun c => !blanks.contains c) = [] := by
  rw [List.filter_eq_nil_iff]
  intro c hc
  simp [g.2 c hc]

theorem filter_name (name : PvName) : (name.1.filter fun c => !blanks.contains c) = name.1 := by
  rw [List.filter_eq_self]
  intro c hc
  simp [(name.2.2 c hc).2.2]

theorem lessThan_notMem_gap (g : Gap) : lessThan ∉ g.1 := fun h => absurd (g.2 lessThan h) (by decide)

section

variable (hT : T.Reads)
include hT

/-- Up to the next tag. -/
theorem getToken_gap (g : Gap) (rest : List UInt8) :
    T.getToken lessThan blanks (g.1 ++ lessThan :: rest) = (true, [], rest) := by
  rw [hT.stops lessThan blanks g.1 rest (by decide) (lessThan_notMem_gap g), filter_gap]

/-- A name, up to the tag behind it. -/
theorem getToken_name (name : PvName) (rest : List UInt8) :
    T.getToken lessThan blanks (name.1 ++ lessThan :: rest) = (true, name.1, rest) := by
  rw [hT.stops lessThan blanks name.1 rest (by decide) fun h => (name.2.2 lessThan h).1 rfl, filter_name]

/-- The rest of a tag. -/
theorem getToken_content (content : Content) (rest : List UInt8) : ∃ token,
    T.getToken greaterThan blanks (content.1 ++ greaterThan :: rest) = (true, token, rest) :=
  ⟨_, hT.stops greaterThan blanks content.1 rest (by decide) content.2.2⟩

/-- The rest of the tag behind a name. -/
theorem getToken_last (content : Content) (rest : List UInt8) : ∃ token,
    T.getToken greaterThan [] (content.1 ++ greaterThan :: rest) = (true, token, rest) :=
  ⟨_, hT.stops greaterThan [] content.1 rest (List.not_mem_nil) content.2.2⟩

/-- The end of the file. -/
theorem getToken_eof (g : Gap) : T.getToken lessThan blanks g.1 = (false, [], []) :=
  hT.eof lessThan blanks g.1 (by decide) g.2

end

/-! ### A call -/

theorem scanningTurn_again {token variable_ rest rest' : List UInt8} {ret : Bool}
    (htag : T.getToken greaterThan blanks file = (true, token, rest))
    (hname : T.getToken lessThan blanks rest = (ret, variable_, rest')) :
    scanningTurn T ⟨file, [], true⟩ = .again ⟨rest', variable_, ret⟩ := by
  unfold scanningTurn
  simp only [and_self, if_true, htag, hname, Bool.true_and]

/-- The loop leaves once it has a name, or has come to the end of the file. -/
theorem scanningTurn_leave {s : Scanning} (h : s.variable_ ≠ [] ∨ s.ret = false) :
    scanningTurn T s = .leave s := by
  unfold scanningTurn
  refine if_neg fun hcond => ?_
  rcases h with hname | hret
  · exact hname hcond.1
  · exact absurd (hret.symm.trans hcond.2) Bool.false_ne_true

/-- Tags with the gaps before them. -/
def tagsText (tags : List (Gap × Content)) : List UInt8 := tags.flatMap fun x => x.1.1 ++ tag x.2

theorem tagsText_cons (g : Gap) (content : Content) (tags : List (Gap × Content)) (rest : List UInt8) :
    tagsText ((g, content) :: tags) ++ rest =
      g.1 ++ lessThan :: (content.1 ++ greaterThan :: (tagsText tags ++ rest)) := by
  simp [tagsText, tag]

theorem tag_append (content : Content) (rest : List UInt8) :
    tag content ++ rest = lessThan :: (content.1 ++ greaterThan :: rest) := by
  simp [tag]

section

variable (hT : T.Reads)
include hT

/-- **The loop comes to the name behind the tags.** -/
theorem ends_name (name : PvName) (last : Content) (rest : List UInt8) :
    ∀ (tags : List (Gap × Content)) (first : Content),
    Ends (scanningTurn T) ⟨first.1 ++ greaterThan :: (tagsText tags ++ (name.1 ++ (tag last ++ rest))),
      [], true⟩
      ⟨last.1 ++ greaterThan :: rest, name.1, true⟩
  | [], first => by
    obtain ⟨token, htag⟩ := getToken_content hT first (name.1 ++ (tag last ++ rest))
    have hname := getToken_name hT name (last.1 ++ greaterThan :: rest)
    rw [← tag_append] at hname
    exact .again (scanningTurn_again htag hname) (.leave (scanningTurn_leave (.inl name.2.1)))
  | (g, content) :: tags, first => by
    rw [tagsText_cons]
    obtain ⟨token, htag⟩ := getToken_content hT first
      (g.1 ++ lessThan :: (content.1 ++ greaterThan :: (tagsText tags ++ (name.1 ++ (tag last ++ rest)))))
    exact .again (scanningTurn_again htag (getToken_gap hT g _)) (ends_name name last rest tags content)

/-- Behind the last tags it comes to the end of the file. -/
theorem ends_eof (g : Gap) : ∀ (tags : List (Gap × Content)) (first : Content),
    Ends (scanningTurn T) ⟨first.1 ++ greaterThan :: (tagsText tags ++ g.1), [], true⟩ ⟨[], [], false⟩
  | [], first => by
    obtain ⟨token, htag⟩ := getToken_content hT first g.1
    exact .again (scanningTurn_again htag (getToken_eof hT g)) (.leave (scanningTurn_leave (.inr rfl)))
  | (g', content) :: tags, first => by
    rw [tagsText_cons]
    obtain ⟨token, htag⟩ :=
      getToken_content hT first (g'.1 ++ lessThan :: (content.1 ++ greaterThan :: (tagsText tags ++ g.1)))
    exact .again (scanningTurn_again htag (getToken_gap hT g' _)) (ends_eof g tags content)

/-- A call in front of some tags and a name returns the name. -/
theorem getVariable_name (g : Gap) (first : Content) (tags : List (Gap × Content)) (name : PvName)
    (last : Content) (rest : List UInt8) :
    GetVariable T (tagsText ((g, first) :: tags) ++ (name.1 ++ (tag last ++ rest))) (true, name.1, rest) := by
  obtain ⟨token, hlast⟩ := getToken_last hT last rest
  unfold GetVariable
  rw [tagsText_cons, getToken_gap hT]
  refine ⟨_, ends_name hT name last rest tags first, ?_⟩
  rw [hlast]
  rfl

/-- A call in front of the last tags returns false. -/
theorem getVariable_eof (g : Gap) (first : Content) (tags : List (Gap × Content)) (after : Gap) :
    ∃ rest, GetVariable T (tagsText ((g, first) :: tags) ++ after.1) (false, [], rest) := by
  refine ⟨(T.getToken greaterThan [] []).2.2, ?_⟩
  unfold GetVariable
  rw [tagsText_cons, getToken_gap hT]
  exact ⟨_, ends_eof hT after tags first, rfl⟩

/-! ### The calls -/

/-- From some tags on, calls return the names of the entries behind them. -/
theorem returns_entries (beforeClosing : Gap) (closing : Content) (afterClosing : Gap) :
    ∀ (entries : List Entry) (g : Gap)
    (first : Content), Returns T (tagsText [(g, first)] ++ (entries.flatMap Entry.text ++
      (tagsText [(beforeClosing, closing)] ++ afterClosing.1))) (entries.map fun e => e.name.1)
  | [], g, first => by
    obtain ⟨rest, hcall⟩ := getVariable_eof hT g first [(beforeClosing, closing)] afterClosing
    have hshape : tagsText [(g, first)] ++ (tagsText [(beforeClosing, closing)] ++ afterClosing.1) =
        tagsText [(g, first), (beforeClosing, closing)] ++ afterClosing.1 := by simp [tagsText]
    rw [← hshape] at hcall
    exact .stop hcall
  | e :: entries, g, first => by
    have hcall := getVariable_name hT g first [(e.beforeSi, siTag), (e.beforeT, tTag)] e.name tEndTag
      (tagsText [(e.beforeSiEnd, siEndTag)] ++
        (entries.flatMap Entry.text ++ (tagsText [(beforeClosing, closing)] ++ afterClosing.1)))
    refine .next ?_ (returns_entries beforeClosing closing afterClosing entries e.beforeSiEnd siEndTag)
    simpa [tagsText, Entry.text] using hcall

/-- **Calls of `GetVariable` return the names of the file**, and then false. -/
theorem returns_names (f : PvFile) : Returns T f.text f.names := by
  have hcalls := returns_entries hT f.beforeClosing f.closing f.afterClosing f.entries f.beforeHeader f.header
  simpa [PvFile.text, PvFile.names, tagsText] using hcalls

end

end Hieratika.Diode
