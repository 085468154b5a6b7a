import Mathlib.Order.Bounds.Basic
import RuleLang.Proofs.Lexeme.Boundary
import RuleLang.Proofs.Lexeme.Parted

/-!
# Where a consequence ends

The end of a consequence is found in one pass that keeps three facts of the text read so far. It is
the least position of a word `end` that stands where a consequence can end, and where that is depends
on the text before it alone, once its strings and comments are marked as the lexer delimits them.

## Main definitions

* `Shade`, `shaded` — what the characters of a text belong to.
* `StartsPiece` — nothing significant comes before, or none since a line break, a `;` or a `\x7d`.
* `ClosesAt` — the positions of the words `end` that can close a consequence.
* `Scan.Tells` — what the state of the scan says of the text before.

## Main statements

* `exists_passes` — one step of the scan keeps what the state says, and passes over no closing word.
* `finds_findEnd` — from the start of any piece on the scan finds the first closing word.
* `consequenceLength?_spec` — the scan finds the least position, and which line breaks count.
-/

namespace RuleLang.Lexeme

open Text

/-! ## Strings and comments -/

/-- What a character of a consequence belongs to. -/
inductive Shade where
  | code
  | string
  | comment
  deriving DecidableEq, Repr

def Shade.ofKind : Kind → Shade
  | .stringLit => .string
  | .commentLine | .commentBlock => .comment
  | _ => .code

/-- The characters of a text with what they belong to. The first `skip` characters belong to a string
or a comment that is already met. -/
def shadedFrom (shade : Shade) : Nat → List Char → List (Char × Shade)
  | _, [] => []
  | skip + 1, c :: rest => (c, shade) :: shadedFrom shade skip rest
  | 0, c :: rest =>
    let shade := Shade.ofKind (normal c rest).kind
    (c, shade) :: shadedFrom shade (if shade = .code then 0 else (normal c rest).length - 1) rest

/-- Strings and comments reach as far as they do outside consequences. -/
def shaded (text : List Char) : List (Char × Shade) :=
  shadedFrom .code 0 text

/-! ## Places where a consequence can end -/

/-- A character that is neither blank nor part of a comment. -/
def isSignificant (x : Char × Shade) : Bool :=
  x.2 == .string || (x.2 == .code && !isBlank x.1)

def opensBracket (x : Char × Shade) : Bool :=
  x.2 == .code && (x.1 == '(' || x.1 == '\x7b' || x.1 == '[')

def closesBracket (x : Char × Shade) : Bool :=
  x.2 == .code && (x.1 == ')' || x.1 == '\x7d' || x.1 == ']')

/-- Opening minus closing brackets. -/
def depthOf (before : List (Char × Shade)) : Int :=
  before.countP opensBracket - before.countP closesBracket

/-- A `;` or a `\x7d` after which a statement can start. -/
def endsStatement (x : Char × Shade) : Bool :=
  x.2 == .code && (x.1 == ';' || x.1 == '\x7d')

/-- A line break that is not part of a comment. -/
def breaksCode (x : Char × Shade) : Bool :=
  x.2 == .code && isLineBreak x.1

/-- What comes next is the first significant text, or the first one on its line, or it directly
follows a `;` or a `\x7d`. Which characters end a line is for `breaks` to say. -/
def StartsPiece (breaks : Char × Shade → Bool) (before : List (Char × Shade)) : Prop :=
  ∃ front back, before = front ++ back ∧ (∀ x ∈ back, isSignificant x = false) ∧
    (front = [] ∨ front.getLast?.any (fun x => breaks x || endsStatement x) = true)

/-- The word `end` stands at a position and can close the consequence. -/
structure ClosesAt (breaks : Char × Shade → Bool) (text : List Char) (n : Nat) : Prop where
  word : wordAt (text.drop n) = ['e', 'n', 'd']
  code : (shaded text)[n]?.any (fun x => x.2 == .code) = true
  depth : depthOf ((shaded text).take n) ≤ 0
  starts : StartsPiece breaks ((shaded text).take n)
  /-- The next character that is not blank makes no name of the word. -/
  name : usesAsName (text.drop (n + 3)) = false

/-! ## Pieces of a text -/

section Pieces

variable {c : Char} {rest : List Char}

@[simp] theorem shaded_nil : shaded [] = [] := rfl

@[simp] theorem map_fst_shadedFrom (shade : Shade) (skip : Nat) (text : List Char) :
    (shadedFrom shade skip text).map Prod.fst = text := by
  induction text generalizing shade skip with
  | nil => cases skip <;> rfl
  | cons c rest ih =>
    cases skip with
    | zero => exact congrArg (c :: ·) (ih _ _)
    | succ skip => exact congrArg (c :: ·) (ih _ _)

theorem shadedFrom_eq (shade : Shade) (skip : Nat) (text : List Char) :
    shadedFrom shade skip text = (text.take skip).map (·, shade) ++ shaded (text.drop skip) := by
  induction text generalizing skip with
  | nil => cases skip <;> rfl
  | cons c rest ih =>
    cases skip with
    | zero => rfl
    | succ skip => exact congrArg ((c, shade) :: ·) (ih skip)

/-- What opens neither a comment nor a string is code. -/
theorem shade_normal (hline : startsLineComment (c :: rest) = false)
    (hblock : startsBlockComment (c :: rest) = false) (hquote : (c == '"' || c == '\x27') = false) :
    Shade.ofKind (normal c rest).kind = .code := by
  have hkeyword : ∀ k : Kind, k.isKeyword = true → Shade.ofKind k = .code := by
    intro k h
    cases k <;> first | rfl | cases h
  refine normal_cases (P := fun l => Shade.ofKind l.kind = .code) c rest (fun _ => rfl)
    (fun _ => rfl) (fun _ => ?_) (fun hc => ?_) (fun _ => ?_) (fun _ => ?_) (fun k n hp => ?_) rfl
  · rw [slash, if_neg (by simp [hline]), if_neg (by simp [hblock])]
    split <;> rfl
  · rcases hc with rfl | rfl <;> exact absurd hquote (by decide)
  · rcases kind_number (c :: rest) with h | h <;> rw [h] <;> rfl
  · rcases kind_word (c :: rest) with h | h
    · rw [h]
      rfl
    · exact hkeyword _ h
  · have htable : ∀ k ∈ Kind.bangDot :: (doublePunctuation.map Prod.snd ++
        singlePunctuation.map Prod.snd), Shade.ofKind k = .code := by decide
    exact htable k (mem_kinds_of_punctuation hp)

theorem shade_of_not_mem (hc : c ∉ ['/', '"', '\x27']) :
    Shade.ofKind (normal c rest).kind = .code := by
  simp only [List.mem_cons, List.not_mem_nil, or_false, not_or] at hc
  refine shade_normal ?_ ?_ ?_
  · simp [startsLineComment_cons, hc.1]
  · simp [startsBlockComment_cons, hc.1]
  · simp [hc.2.1, hc.2.2]

/-- Only a quote opens a string. -/
theorem shade_ne_string (hquote : (c == '"' || c == '\x27') = false) :
    Shade.ofKind (normal c rest).kind ≠ .string := by
  by_cases hc : c = '/'
  · subst hc
    have hnormal : normal '/' rest = slash ('/' :: rest) := rfl
    rw [hnormal]
    rcases kind_slash ('/' :: rest) with h | h | h | h <;> rw [h] <;> decide
  · rw [shade_of_not_mem (by simpa [hc] using hquote)]
    decide

theorem shaded_code (h : Shade.ofKind (normal c rest).kind = .code) :
    shaded (c :: rest) = (c, .code) :: shaded rest := by
  rw [shaded, shadedFrom]
  simp only [h, if_true]
  rfl

theorem shaded_piece {shade : Shade} (h : Shade.ofKind (normal c rest).kind = shade)
    (hne : shade ≠ .code) {n : Nat} (hn : (normal c rest).length = n + 1) :
    shaded (c :: rest) = ((c :: rest).take (n + 1)).map (·, shade) ++ shaded (rest.drop n) := by
  rw [shaded, shadedFrom]
  simp only [h, if_neg hne, hn, Nat.add_sub_cancel, shadedFrom_eq]
  rfl

theorem shaded_word {w : List Char} (hw : ∀ c ∈ w, isWordPart c = true) (x : List Char) :
    shaded (w ++ x) = w.map (·, Shade.code) ++ shaded x := by
  have hpart : ['/', '"', '\x27'].any isWordPart = false := by decide
  induction w with
  | nil => rfl
  | cons c w ih =>
    have hc : c ∉ ['/', '"', '\x27'] := fun hm => by
      exact List.any_eq_false.1 hpart c hm (hw c List.mem_cons_self)
    rw [List.cons_append, shaded_code (shade_of_not_mem hc),
      ih fun d hd => hw d (List.mem_cons_of_mem c hd)]
    rfl

end Pieces

/-! ## What the text before says -/

section Before

variable {breaks : Char × Shade → Bool} {before : List (Char × Shade)}

theorem startsPiece_nil : StartsPiece breaks [] :=
  ⟨[], [], rfl, nofun, .inl rfl⟩

/-- One more character is what matters, or the text before it is. -/
theorem startsPiece_append_singleton {x : Char × Shade} :
    StartsPiece breaks (before ++ [x]) ↔
      (breaks x || endsStatement x) = true ∨ isSignificant x = false ∧ StartsPiece breaks before := by
  constructor
  · rintro ⟨front, back, h, hback, hfront⟩
    rcases List.eq_nil_or_concat back with rfl | ⟨back, y, rfl⟩
    · rw [List.append_nil] at h
      subst h
      exact .inl (by simpa using hfront)
    · rw [List.concat_eq_append, ← List.append_assoc] at h
      obtain ⟨rfl, rfl⟩ := List.append_singleton_inj.1 h
      exact .inr ⟨hback x (by simp), front, back, rfl, fun z hz => hback z (by simp [hz]), hfront⟩
  · rintro (hx | ⟨hx, front, back, rfl, hback, hfront⟩)
    · exact ⟨before ++ [x], [], (List.append_nil _).symm, nofun, .inr (by simpa using hx)⟩
    · refine ⟨front, back ++ [x], List.append_assoc .., fun z hz => ?_, hfront⟩
      rcases List.mem_append.1 hz with hz | hz
      · exact hback z hz
      · rwa [List.mem_singleton.1 hz]

theorem depthOf_append_singleton (x : Char × Shade) :
    depthOf (before ++ [x]) = depthOf before + (if opensBracket x then 1 else 0) -
      (if closesBracket x then 1 else 0) := by
  rw [depthOf, depthOf, List.countP_append, List.countP_append]
  cases hopen : opensBracket x <;> cases hclose : closesBracket x <;> simp [hopen, hclose] <;> omega

end Before

namespace Scan

variable {s : Scan} {before : List (Char × Shade)} {c : Char}

/-- A statement can start here. -/
def startsPiece (s : Scan) : Bool :=
  s.last.isNone || s.lineEnded || s.last == some ';' || s.last == some '\x7d'

theorem atBoundary_eq (s : Scan) : s.atBoundary = (decide (s.depth ≤ 0) && s.startsPiece) := rfl

theorem startsPiece_sawCode (s : Scan) (c : Char) :
    (s.sawCode c).startsPiece = (c == ';' || c == '\x7d') := by
  simp [startsPiece, sawCode]

/-- Characters of a class without brackets and `;`. -/
theorem plain_of {p : Char → Bool} (hp : ['(', ')', '[', ']', '\x7b', '\x7d', ';'].any p = false)
    (hc : p c = true) : opensBracket (c, .code) = false ∧ closesBracket (c, .code) = false ∧
      endsStatement (c, .code) = false := by
  have hne : ∀ d ∈ ['(', ')', '[', ']', '\x7b', '\x7d', ';'], c ≠ d := by
    rintro d hd rfl
    exact List.any_eq_false.1 hp c hd hc
  refine ⟨?_, ?_, ?_⟩
  · simp [opensBracket, hne]
  · simp [closesBracket, hne]
  · simp [endsStatement, hne]

theorem not_isLineBreak (hc : isBlank c = false) : isLineBreak c = false := by
  cases hb : isLineBreak c with
  | false => rfl
  | true => rw [isBlank_of_isLineBreak hb] at hc; cases hc

theorem not_isBlank (hc : isWordPart c = true) : isBlank c = false := by
  cases hb : isBlank c with
  | false => rfl
  | true => rw [isWordPart_of_isBlank hb] at hc; cases hc

/-- The state says of the text before what a closing word after it depends on. -/
structure Tells (s : Scan) (before : List (Char × Shade)) : Prop where
  depth : s.depth = depthOf before
  starts : s.startsPiece = true ↔ StartsPiece breaksCode before

theorem tells_initial : initial.Tells [] :=
  ⟨rfl, iff_of_true rfl startsPiece_nil⟩

namespace Tells

/-- What the state says after one more character. -/
theorem append_singleton (h : s.Tells before) {s' : Scan} {x : Char × Shade}
    (hdepth : s'.depth = s.depth + (if opensBracket x then 1 else 0) -
      (if closesBracket x then 1 else 0))
    (hstarts : s'.startsPiece =
      (breaksCode x || endsStatement x || !isSignificant x && s.startsPiece)) :
    s'.Tells (before ++ [x]) := by
  refine ⟨by rw [depthOf_append_singleton, ← h.depth, hdepth], ?_⟩
  rw [startsPiece_append_singleton, ← h.starts, hstarts]
  simp

theorem lineEnd (h : s.Tells before) (hc : isLineBreak c = true) :
    { s with lineEnded := true }.Tells (before ++ [(c, Shade.code)]) := by
  obtain ⟨hopen, hclose, -⟩ := plain_of (by decide) hc
  refine h.append_singleton (by simp [hopen, hclose]) ?_
  simp [startsPiece, breaksCode, hc]

theorem blank (h : s.Tells before) (hc : isBlank c = true) (hbreak : isLineBreak c = false) :
    s.Tells (before ++ [(c, Shade.code)]) := by
  obtain ⟨hopen, hclose, hends⟩ := plain_of (by decide) hc
  refine h.append_singleton (by simp [hopen, hclose]) ?_
  simp only [breaksCode, hbreak, hends, isSignificant, hc]
  rfl

theorem comment (h : s.Tells before) (w : List Char) :
    s.Tells (before ++ w.map (·, Shade.comment)) := by
  induction w generalizing before with
  | nil => simpa using h
  | cons c w ih =>
    have hc : s.Tells (before ++ [(c, Shade.comment)]) :=
      h.append_singleton (by simp [opensBracket, closesBracket]) rfl
    simpa using ih hc

theorem string (h : s.Tells before) {quote : Char} (hquote : (quote == ';' || quote == '\x7d') = false)
    {w : List Char} (hw : w ≠ []) : (s.sawCode quote).Tells (before ++ w.map (·, Shade.string)) := by
  induction w generalizing before s with
  | nil => exact absurd rfl hw
  | cons c w ih =>
    have hc : (s.sawCode quote).Tells (before ++ [(c, Shade.string)]) := by
      refine h.append_singleton (by simp [opensBracket, closesBracket, sawCode]) ?_
      exact (startsPiece_sawCode s quote).trans hquote
    by_cases hw : w = []
    · subst hw
      exact hc
    · have := ih hc hw
      simpa [sawCode] using this

/-- A character of code that is not blank. -/
theorem code (h : s.Tells before) {depth : Int} (hblank : isBlank c = false)
    (hdepth : depth = s.depth + (if opensBracket (c, .code) then 1 else 0) -
      (if closesBracket (c, .code) then 1 else 0)) :
    ({ s with depth := depth }.sawCode c).Tells (before ++ [(c, Shade.code)]) := by
  refine h.append_singleton hdepth ?_
  rw [startsPiece_sawCode]
  simp [breaksCode, endsStatement, isSignificant, hblank, not_isLineBreak hblank]

theorem word (h : s.Tells before) {w : List Char} (hw : ∀ c ∈ w, isWordPart c = true) (hne : w ≠ []) :
    (s.sawCode (w.getLast hne)).Tells (before ++ w.map (·, Shade.code)) := by
  induction w generalizing before s with
  | nil => exact absurd rfl hne
  | cons c w ih =>
    have hpart := hw c List.mem_cons_self
    obtain ⟨hopen, hclose, -⟩ := plain_of (by decide) hpart
    have hc : (s.sawCode c).Tells (before ++ [(c, Shade.code)]) :=
      h.code (not_isBlank hpart) (by simp [hopen, hclose])
    by_cases hne : w = []
    · subst hne
      exact hc
    · have := ih hc (fun e he => hw e (List.mem_cons_of_mem c he)) hne
      rw [List.getLast_cons hne, List.map_cons, List.append_cons]
      exact this

end Tells

end Scan

/-! ## One step of the scan -/

open Scan

section Step

variable {s : Scan} {before : List (Char × Shade)} {c : Char} {rest : List Char}

theorem not_startsPiece_of_word {w : List Char} (hw : ∀ c ∈ w, isWordPart c = true) (hne : w ≠ []) :
    ¬StartsPiece breaksCode (before ++ w.map (·, Shade.code)) := by
  have hpart := hw _ (List.getLast_mem hne)
  obtain ⟨-, -, hends⟩ := plain_of (by decide) hpart
  rw [← List.dropLast_append_getLast hne, List.map_append, List.map_singleton, ← List.append_assoc,
    startsPiece_append_singleton]
  simp [breaksCode, isSignificant, hends, not_isBlank hpart, not_isLineBreak (not_isBlank hpart)]

/-- What a step of the scan passes over: a piece of the text in which no closing word stands but at
its start. -/
structure Passes (s' : Scan) (skip : Nat) (before : List (Char × Shade)) (text : List Char)
    (piece : List (Char × Shade)) : Prop where
  shaded : shaded text = piece ++ Lexeme.shaded (text.drop (skip + 1))
  length : piece.length = skip + 1
  tells : s'.Tells (before ++ piece)
  inner : ∀ front x back, piece = front ++ x :: back → front ≠ [] → x.2 = .code →
    ¬StartsPiece breaksCode (before ++ front)

theorem Passes.single {s' : Scan} (hshade : Shade.ofKind (normal c rest).kind = .code)
    (h : s'.Tells (before ++ [(c, .code)])) :
    Passes s' 0 before (c :: rest) [(c, .code)] := by
  refine ⟨shaded_code hshade, rfl, h, fun front x back heq hne => ?_⟩
  obtain ⟨y, front, rfl⟩ := List.exists_cons_of_ne_nil hne
  simp at heq

/-- A string or a comment. -/
theorem Passes.of_shade (shade : Shade) {s' : Scan} {skip : Nat}
    (hshade : Shade.ofKind (normal c rest).kind = shade) (hne : shade ≠ .code)
    (hlength : (normal c rest).length = skip + 1)
    (h : s'.Tells (before ++ ((c :: rest).take (skip + 1)).map (·, shade))) :
    Passes s' skip before (c :: rest) (((c :: rest).take (skip + 1)).map (·, shade)) := by
  have hle := (length_normal c rest).2
  refine ⟨shaded_piece hshade hne hlength, ?_, h, fun front x back heq _ hx => ?_⟩
  · rw [List.length_map, List.length_take]
    omega
  · have hmem : x ∈ ((c :: rest).take (skip + 1)).map (·, shade) := by
      rw [heq]
      simp
    obtain ⟨d, -, rfl⟩ := List.mem_map.1 hmem
    exact absurd hx hne

theorem Passes.word {s' : Scan} {w x : List Char} (hw : ∀ c ∈ w, isWordPart c = true)
    (htext : c :: rest = w ++ x) {skip : Nat} (hskip : w.length = skip + 1)
    (h : s'.Tells (before ++ w.map (·, Shade.code))) :
    Passes s' skip before (c :: rest) (w.map (·, Shade.code)) := by
  refine ⟨?_, by simpa using hskip, h, fun front x back heq hne hx => ?_⟩
  · rw [htext, shaded_word hw, ← hskip, List.drop_left]
  · obtain ⟨front, back, rfl, rfl, -⟩ := List.map_eq_append_iff.1 heq
    exact not_startsPiece_of_word (fun d hd => hw d (List.mem_append_left _ hd)) (by simpa using hne)

theorem exists_passes (h : s.Tells before) (c : Char) (rest : List Char) : ∃ piece,
    Passes (stepConsequence s c rest).2 (stepConsequence s c rest).1 before (c :: rest) piece := by
  have hblank (hb : isBlank c = true) : c ∉ ['/', '"', '\x27'] := by
    have hmarks : ['/', '"', '\x27'].any isBlank = false := by decide
    exact fun hm => List.any_eq_false.1 hmarks c hm hb
  unfold stepConsequence
  split
  · rename_i hbreak
    exact ⟨_, .single (shade_of_not_mem (hblank (isBlank_of_isLineBreak hbreak))) (h.lineEnd hbreak)⟩
  rename_i hbreak
  split
  · rename_i hb
    exact ⟨_, .single (shade_of_not_mem (hblank hb)) (h.blank hb (by simpa using hbreak))⟩
  rename_i hb
  split
  · rename_i hline
    obtain rfl : c = '/' := by simp [startsLineComment_cons] at hline; exact hline.1
    have hnormal : normal '/' rest = ⟨.commentLine, lineCommentLength ('/' :: rest), none⟩ := by
      change slash ('/' :: rest) = _
      rw [slash, if_pos hline]
    have hlength : lineCommentLength ('/' :: rest) = lineCommentLength rest + 1 := by
      simp [lineCommentLength, isLineBreak]
    exact ⟨_, .of_shade .comment (by rw [hnormal]; rfl) (by decide)
      (by rw [hnormal]; exact hlength) (h.comment _)⟩
  rename_i hline
  split
  · rename_i hblock
    obtain rfl : c = '/' := by simp [startsBlockComment_cons] at hblock; exact hblock.1
    have hnormal : (normal '/' rest).kind = .commentBlock ∧
        (normal '/' rest).length = (blockCommentLength ('/' :: rest)).1 := by
      change (slash ('/' :: rest)).kind = _ ∧ (slash ('/' :: rest)).length = _
      rw [slash, if_neg hline, if_pos hblock]
      exact ⟨rfl, rfl⟩
    have hle := blockCommentLength_le hblock
    exact ⟨_, .of_shade .comment (by rw [hnormal.1]; rfl) (by decide)
      (by rw [hnormal.2]; omega) (h.comment _)⟩
  rename_i hblock
  split
  · rename_i hquote
    have hnormal : normal c rest = string c rest ∧ (c == ';' || c == '\x7d') = false := by
      simp only [Bool.or_eq_true, beq_iff_eq] at hquote
      rcases hquote with rfl | rfl <;> exact ⟨rfl, rfl⟩
    exact ⟨_, .of_shade .string (by rw [hnormal.1]; rfl) (by decide)
      (by rw [hnormal.1]; rfl) (h.string hnormal.2 (by simp))⟩
  rename_i hquote
  have hshade : Shade.ofKind (normal c rest).kind = .code :=
    shade_normal (by simpa using hline) (by simpa using hblock) (by simpa using hquote)
  have hnonblank : isBlank c = false := by simpa using hb
  split
  · rename_i hopen
    have hclose : closesBracket (c, .code) = false := by
      simp only [Bool.or_eq_true, beq_iff_eq] at hopen
      rcases hopen with (rfl | rfl) | rfl <;> rfl
    have hopen : opensBracket (c, .code) = true := hopen
    exact ⟨_, .single hshade (h.code hnonblank (by simp [hopen, hclose]))⟩
  rename_i hopen
  have hopen : opensBracket (c, .code) = false := by simpa [opensBracket] using hopen
  split
  · rename_i hclose
    have hclose : closesBracket (c, .code) = true := hclose
    exact ⟨_, .single hshade (h.code hnonblank (by simp [hopen, hclose]))⟩
  rename_i hclose
  have hclose : closesBracket (c, .code) = false := by simpa [closesBracket] using hclose
  split
  · rename_i hword
    have hpart := isWordPart_of_isWordStart hword
    have hw : ∀ d ∈ c :: rest.takeWhile isWordPart, isWordPart d = true := by
      intro d hd
      rcases List.mem_cons.1 hd with rfl | hd
      · exact hpart
      · exact List.mem_takeWhile_imp hd
    have hlast : (wordAt (c :: rest)).getLastD c =
        (c :: rest.takeWhile isWordPart).getLast (List.cons_ne_nil _ _) := by
      rw [wordAt, List.takeWhile_cons_of_pos hpart, List.getLastD_cons, List.getLast_eq_getLastD]
    have htext : c :: rest = c :: rest.takeWhile isWordPart ++ rest.dropWhile isWordPart := by
      rw [List.cons_append, List.takeWhile_append_dropWhile]
    rw [hlast]
    exact ⟨_, .word hw htext rfl (h.word hw _)⟩
  · exact ⟨_, .single hshade (h.code hnonblank (by simp [hopen, hclose]))⟩

end Step

/-! ## The whole scan -/

section Search

variable {s : Scan} {before : List (Char × Shade)} {text rest : List Char}

theorem text_eq (h : shaded text = before ++ shaded rest) : text = before.map Prod.fst ++ rest := by
  rw [← map_fst_shadedFrom .code 0 text, ← map_fst_shadedFrom .code 0 rest, ← List.map_append]
  exact congrArg (List.map Prod.fst) h

/-- The scan stops exactly where a closing word stands. -/
theorem closesHere_iff (h : s.Tells before) (hshaded : shaded text = before ++ shaded rest) :
    closesHere s rest = true ↔ ClosesAt breaksCode text before.length := by
  have hdrop : text.drop before.length = rest := by
    rw [text_eq hshaded, List.drop_left' (List.length_map _)]
  have htake : (shaded text).take before.length = before := by
    rw [hshaded, List.take_left]
  have hget : (shaded text)[before.length]? = (shaded rest).head? := by
    rw [hshaded, List.getElem?_append_right (Nat.le_refl _), Nat.sub_self, List.head?_eq_getElem?]
  by_cases hword : wordAt rest = ['e', 'n', 'd']
  · obtain ⟨tail, rfl⟩ : ∃ tail, rest = 'e' :: tail := by
      cases rest with
      | nil => cases hword
      | cons c tail =>
        rw [wordAt, List.takeWhile_cons] at hword
        split at hword
        · exact ⟨tail, by rw [(List.cons.inj hword).1]⟩
        · cases hword
    have hcode : (shaded ('e' :: tail)).head? = some ('e', .code) := by
      rw [shaded_code (shade_of_not_mem (by decide))]
      rfl
    have hcloses : closesHere s ('e' :: tail) =
        (s.atBoundary && !usesAsName (('e' :: tail).drop 3)) := by
      rw [closesHere, hword]
      rfl
    rw [hcloses, atBoundary_eq]
    constructor
    · intro hc
      simp only [Bool.and_eq_true, decide_eq_true_eq, Bool.not_eq_true'] at hc
      refine ⟨by rw [hdrop, hword], by rw [hget, hcode]; rfl, ?_, ?_, ?_⟩
      · rw [htake, ← h.depth]
        exact hc.1.1
      · rw [htake]
        exact h.starts.1 hc.1.2
      · rw [← List.drop_drop, hdrop]
        exact hc.2
    · intro hc
      have hdepth := hc.depth
      have hstarts := hc.starts
      have hname := hc.name
      rw [htake] at hdepth hstarts
      rw [← List.drop_drop, hdrop] at hname
      rw [h.depth, decide_eq_true hdepth, h.starts.2 hstarts, hname]
      rfl
  · refine iff_of_false (fun hc => ?_) fun hc => hword (hdrop ▸ hc.word)
    simp [closesHere, hword] at hc

/-- The rest of a piece is passed over. -/
theorem findEnd_skip (s : Scan) (n skip : Nat) (text : List Char) :
    findEnd s n skip text = findEnd s (n + skip) 0 (text.drop skip) := by
  induction text generalizing n skip with
  | nil => cases skip <;> rfl
  | cons c text ih =>
    cases skip with
    | zero => rfl
    | succ skip =>
      rw [findEnd, ih, List.drop_succ_cons]
      congr 1
      omega

/-- A search from a position on finds the first one with a property. -/
def Finds (P : Nat → Prop) (start : Nat) : Option Nat → Prop
  | some n => start ≤ n ∧ P n ∧ ∀ k, start ≤ k → k < n → ¬P k
  | none => ∀ k, start ≤ k → ¬P k

namespace Finds

variable {P : Nat → Prop} {m n : Nat} {found : Option Nat}

/-- The search can start later if the positions before do not have the property. -/
theorem of_le (h : Finds P n found) (hle : m ≤ n) (hnot : ∀ k, m ≤ k → k < n → ¬P k) :
    Finds P m found := by
  have hbefore (k : Nat) (hk : m ≤ k) (hafter : n ≤ k → ¬P k) : ¬P k :=
    (Nat.lt_or_ge k n).elim (hnot k hk) hafter
  cases found with
  | none => exact fun k hk => hbefore k hk (h k)
  | some i =>
    obtain ⟨hi, hP, hleast⟩ := h
    exact ⟨hle.trans hi, hP, fun k hk hlt => hbefore k hk fun hge => hleast k hge hlt⟩

theorem eq_some_iff (h : Finds P 0 found) : found = some n ↔ IsLeast {n | P n} n := by
  constructor
  · rintro rfl
    exact ⟨h.2.1, fun k hk => Nat.le_of_not_lt fun hlt => h.2.2 k (Nat.zero_le k) hlt hk⟩
  · rintro ⟨hn, hle⟩
    cases found with
    | none => exact absurd hn (h n (Nat.zero_le n))
    | some i =>
      have hi : i ≤ n := Nat.le_of_not_lt fun hlt => h.2.2 n (Nat.zero_le n) hlt hn
      exact congrArg some (Nat.le_antisymm hi (hle h.2.1))

theorem eq_none_iff (h : Finds P 0 found) : found = none ↔ ∀ n, ¬P n := by
  constructor
  · rintro rfl n
    exact h n (Nat.zero_le n)
  · intro hnot
    cases found with
    | none => rfl
    | some i => exact absurd h.2.1 (hnot i)

end Finds

/-- No closing word stands within a piece. -/
theorem not_closesAt_of_passes {s' : Scan} {skip : Nat} {piece : List (Char × Shade)}
    (hshaded : shaded text = before ++ shaded rest) (h : Passes s' skip before rest piece) {k : Nat}
    (hlt : before.length < k) (hk : k < before.length + piece.length) :
    ¬ClosesAt breaksCode text k := by
  intro hc
  obtain ⟨i, rfl⟩ : ∃ i, k = before.length + i := ⟨k - before.length, by omega⟩
  have hi : i < piece.length := by omega
  have hsplit : piece = piece.take i ++ piece[i] :: piece.drop (i + 1) := by simp
  have htext : shaded text = before ++ (piece ++ shaded (rest.drop (skip + 1))) := by
    rw [hshaded, h.shaded]
  have htake : (shaded text).take (before.length + i) = before ++ piece.take i := by
    rw [htext, List.take_length_add_append, List.take_append_of_le_length (Nat.le_of_lt hi)]
  have hget : (shaded text)[before.length + i]? = some piece[i] := by
    rw [htext, List.getElem?_append_right (Nat.le_add_right _ _), Nat.add_sub_cancel_left,
      List.getElem?_append_left hi, List.getElem?_eq_getElem hi]
  have hcode := hc.code
  have hstarts := hc.starts
  rw [hget] at hcode
  rw [htake] at hstarts
  have hne : piece.take i ≠ [] := by
    intro hnil
    have := congrArg List.length hnil
    rw [List.length_take, List.length_nil] at this
    omega
  exact h.inner _ _ _ hsplit hne (by simpa using hcode) hstarts

/-- From the start of a piece on the scan finds the first closing word. -/
theorem finds_findEnd (h : s.Tells before) (hshaded : shaded text = before ++ shaded rest) :
    Finds (ClosesAt breaksCode text) before.length (findEnd s before.length 0 rest) := by
  -- each step leaves a shorter rest
  induction hn : rest.length using Nat.strongRecOn generalizing s before rest with
  | ind n ih =>
    have hhere := closesHere_iff h hshaded
    cases rest with
    | nil =>
      intro k hk hc
      have hcode := hc.code
      rw [hshaded, shaded_nil, List.append_nil, List.getElem?_eq_none hk] at hcode
      cases hcode
    | cons c rest =>
      rw [findEnd]
      split
      · rename_i hcloses
        exact ⟨Nat.le_refl _, hhere.1 hcloses, fun k hk hlt => absurd hk (Nat.not_le_of_lt hlt)⟩
      · rename_i hcloses
        obtain ⟨piece, hpiece⟩ := exists_passes h c rest
        have hnext : shaded text =
            before ++ piece ++ shaded (rest.drop (stepConsequence s c rest).1) := by
          rw [hshaded, hpiece.shaded, List.append_assoc, List.drop_succ_cons]
        have hlength : before.length + 1 + (stepConsequence s c rest).1 = (before ++ piece).length := by
          rw [List.length_append, hpiece.length]
          omega
        have hshorter : (rest.drop (stepConsequence s c rest).1).length < n := by
          rw [← hn, List.length_drop, List.length_cons]
          omega
        dsimp only
        rw [findEnd_skip, hlength]
        refine (ih _ hshorter hpiece.tells hnext rfl).of_le (by simp) fun k hk hlt => ?_
        rcases Nat.eq_or_lt_of_le hk with rfl | hk
        · exact fun hc => hcloses (hhere.2 hc)
        · exact not_closesAt_of_passes hshaded hpiece hk (by simpa using hlt)

end Search

/-! ## Line breaks -/

section LineBreaks

variable {text : List Char}

theorem not_isLineBreak_of_stringRest (quote : Char) :
    ∀ c ∈ text.take (stringRest quote text).1, isLineBreak c = false := by
  intro c hc
  by_contra hbreak
  obtain ⟨u, v, huv⟩ := List.append_of_mem hc
  have hle : (stringRest quote (u ++ c :: (v ++ text.drop (stringRest quote text).1))).1 ≤ u.length :=
    stringRest_le_break (by simpa using hbreak)
  rw [← List.cons_append, ← List.append_assoc, ← huv, List.take_append_drop] at hle
  have hlength := List.length_take_le (stringRest quote text).1 text
  rw [huv, List.length_append, List.length_cons] at hlength
  omega

/-- A string does not go on in the next line. -/
theorem not_isLineBreak_of_string : ∀ x ∈ shaded text, x.2 = .string → isLineBreak x.1 = false := by
  induction hn : text.length using Nat.strongRecOn generalizing text with
  | ind n ih =>
    cases text with
    | nil => exact nofun
    | cons c rest =>
      intro x hx hstring
      by_cases hcode : Shade.ofKind (normal c rest).kind = .code
      · rw [shaded_code hcode] at hx
        rcases List.mem_cons.1 hx with rfl | hx
        · cases hstring
        · exact ih rest.length (by simp [← hn]) rfl x hx hstring
      · obtain ⟨i, hi⟩ : ∃ i, (normal c rest).length = i + 1 :=
          ⟨_, (Nat.sub_add_cancel (length_normal c rest).1).symm⟩
        rw [shaded_piece rfl hcode hi] at hx
        rcases List.mem_append.1 hx with hx | hx
        · obtain ⟨d, hd, rfl⟩ := List.mem_map.1 hx
          cases hquote : (c == '"' || c == '\x27') with
          | false => exact absurd hstring (shade_ne_string hquote)
          | true =>
            simp only [Bool.or_eq_true, beq_iff_eq] at hquote
            have hnormal : normal c rest = string c rest := by
              rcases hquote with rfl | rfl <;> rfl
            obtain rfl : (stringRest c rest).1 = i := by
              rw [hnormal] at hi
              exact Nat.succ.inj hi
            rcases List.mem_cons.1 hd with rfl | hd
            · rcases hquote with rfl | rfl <;> rfl
            · exact not_isLineBreak_of_stringRest c d hd
        · refine ih (rest.drop i).length ?_ rfl x hx hstring
          rw [← hn, List.length_drop, List.length_cons]
          omega

/-- Which line breaks count makes no difference before text where both kinds agree. -/
theorem StartsPiece.congr {breaks breaks' : Char × Shade → Bool} {before : List (Char × Shade)}
    (h : ∀ x ∈ before, breaks x = breaks' x) (hstarts : StartsPiece breaks before) :
    StartsPiece breaks' before := by
  obtain ⟨front, back, rfl, hback, hfront⟩ := hstarts
  refine ⟨front, back, rfl, hback, hfront.imp_right fun hlast => ?_⟩
  cases hx : front.getLast? with
  | none => simp [hx] at hlast
  | some x =>
    have hmem := List.mem_append_left back (List.mem_of_getLast? hx)
    simpa [hx, h x hmem] using hlast

theorem ClosesAt.congr {breaks breaks' : Char × Shade → Bool} {n : Nat}
    (h : ∀ x ∈ shaded text, breaks x = breaks' x) (hcloses : ClosesAt breaks text n) :
    ClosesAt breaks' text n :=
  { hcloses with starts := hcloses.starts.congr fun x hx => h x (List.mem_of_mem_take hx) }

end LineBreaks

/-- The scan finds the least position of a word `end` that can close the consequence, and nothing
exactly if there is none. A line break within a comment ends no line here. That makes no difference
to a text whose comments contain none. -/
theorem consequenceLength?_spec (text : List Char) :
    (∀ n, consequenceLength? text = some n ↔ IsLeast {n | ClosesAt breaksCode text n} n) ∧
    (consequenceLength? text = none ↔ ∀ n, ¬ClosesAt breaksCode text n) ∧
    ((∀ x ∈ shaded text, x.2 = .comment → isLineBreak x.1 = false) →
      ∀ n, ClosesAt breaksCode text n ↔ ClosesAt (fun x => isLineBreak x.1) text n) := by
  have hfinds : Finds (ClosesAt breaksCode text) 0 (consequenceLength? text) :=
    finds_findEnd tells_initial rfl
  refine ⟨fun n => hfinds.eq_some_iff, hfinds.eq_none_iff, fun hcomments => ?_⟩
  have hagree : ∀ x ∈ shaded text, breaksCode x = isLineBreak x.1 := by
    rintro ⟨c, shade⟩ hx
    cases shade with
    | code => rfl
    | string => exact (not_isLineBreak_of_string _ hx rfl).symm
    | comment => exact (hcomments _ hx rfl).symm
  exact fun n => ⟨.congr hagree, .congr fun x hx => (hagree x hx).symm⟩

/-- A word `end` that is the first text on its line, but for the end of a comment, closes nothing. -/
example : consequenceLength? "foo() /*\n*/ end".toList = none ∧
    consequenceLength? "foo() /**/\n end".toList = some 12 := by
  decide +kernel

end RuleLang.Lexeme
