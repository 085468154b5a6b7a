import RuleLang.Proofs.Grammar.Yields

/-!
# Instructions that read given elements with warnings

An instruction may read the tokens of elements as these elements and record warnings on the way. The
warnings of a sequence are those of its parts, one after the other.

## Main definitions

* `Grammar.Notes` — an instruction reads the tokens of some elements as these elements and records
  some complaints.
* `Grammar.LedNotes` — it does so with any trivia before the elements.

## Main statements

* `Grammar.Notes.seq`, `Grammar.LedNotes.inner`, … — how instructions that do so are put together.
* `Grammar.Notes.parse_eq` — a text whose tokens are read as a tree has this tree and these
  complaints.
-/

namespace RuleLang

open Grammar Element Ahead

/-- The token that comes next. -/
theorem Ahead.Opens.exists_currentToken? {a : Ahead} {next : Ahead → Prop} {l : Leaf}
    {es : List Element} (hl : l.kind.isSolid = true) (h : Opens (l.element :: es) next a) :
    ∃ t, a.currentToken? = some t ∧ t.leaf = l := by
  obtain ⟨ts, rest, rfl, hts, -⟩ := h
  rw [leavesOf_cons, Leaf.leaves_element] at hts
  obtain ⟨t, us, rfl, rfl, -⟩ := List.map_eq_cons_iff.1 hts
  have hsignificant : t.isTrivia = false := Kind.isTrivia_of_isSolid hl
  exact ⟨t, by simp [currentToken?, nthToken?, hsignificant], rfl⟩

namespace Grammar

/-- The instruction reads the tokens of the elements as these elements, if what comes after them is
as it should be, and records these complaints. Reading stays in step. -/
def Notes (g : Rule) (next : Ahead → Prop) (es : List Element) (cs : List Complaint) : Prop :=
  ∀ (before : List Element) (ts : List Token) (rest : Ahead) (errors : List SyntaxError) (m : Nat),
    ts.map Token.leaf = leavesOf es → next rest →
      ∃ noted n, noted.map SyntaxError.complaint = cs.reverse ∧
        Reads Production.body g ⟨ts ++ rest, before.reverse, errors, false, none, m⟩
          ⟨rest, (before ++ es).reverse, noted ++ errors, false, none, n⟩

/-- The instruction does so with any trivia before the elements. -/
def LedNotes (g : Rule) (next : Ahead → Prop) (es : List Element) (cs : List Complaint) : Prop :=
  ∀ lead : List Element, (∀ e ∈ lead, e.isTrivia = true) → Notes g next (lead ++ es) cs

variable {f g body : Rule} {p : Production} {next next' : Ahead → Prop} {k kind : Kind}
  {es es' : List Element} {cs ds : List Complaint} {choose : Ahead → Rule} {test : Ahead → Bool}

theorem Yields.notes (h : Yields g next es) : Notes g next es [] := by
  intro before ts rest errors m hts hrest
  obtain ⟨n, hn⟩ := h before ts rest errors none m hts hrest
  exact ⟨[], n, rfl, hn⟩

theorem Gives.notes (h : Gives g next es) : LedNotes g next es [] :=
  fun lead hlead => (h lead hlead).notes

namespace Notes

theorem seq (hf : Notes f next' es cs) (hg : Notes g next es' ds)
    (hnext : ∀ a, Opens es' next a → next' a) : Notes (.seq f g) next (es ++ es') (cs ++ ds) := by
  intro before ts rest errors m hts hrest
  rw [leavesOf_append] at hts
  obtain ⟨ts₁, ts₂, rfl, hts₁, hts₂⟩ := List.map_eq_append_iff.1 hts
  obtain ⟨noted, n, hnoted, hn⟩ := hf before ts₁ (ts₂ ++ rest) errors m hts₁
    (hnext _ ⟨ts₂, rest, rfl, hts₂, hrest⟩)
  obtain ⟨noted', n', hnoted', hn'⟩ := hg (before ++ es) ts₂ rest (noted ++ errors) n hts₂ hrest
  refine ⟨noted' ++ noted, n', by simp [hnoted, hnoted'], ?_⟩
  rw [List.append_assoc, List.append_assoc, ← List.append_assoc before]
  exact .seq hn hn'

theorem look (h : Notes g next es cs) (hg : ∀ a, Opens es next a → choose a = g) :
    Notes (.look choose) next es cs := by
  intro before ts rest errors m hts hrest
  obtain ⟨noted, n, hnoted, hn⟩ := h before ts rest errors m hts hrest
  exact ⟨noted, n, hnoted, .look (by rwa [hg _ ⟨ts, rest, rfl, hts, hrest⟩])⟩

theorem call (h : Notes p.body next es cs) : Notes (.call p) next es cs := by
  intro before ts rest errors m hts hrest
  obtain ⟨noted, n, hnoted, hn⟩ := h before ts rest errors (m + 1) hts hrest
  exact ⟨noted, n, hnoted, .call hn⟩

/-- A warning is recorded. -/
theorem complain {c : Complaint} (hc : c.isWarning = true) : Notes (.complain c) next [] [c] := by
  intro before ts rest errors m hts _
  obtain rfl := List.map_eq_nil_iff.1 hts
  have hreads : Reads Production.body (.complain c)
      ⟨rest, before.reverse, errors, false, none, m⟩ _ := .complain c _
  exact ⟨[⟨c, rest.span⟩], m, rfl, by simpa [Reading.complain, Reading.hasRoom, hc] using hreads⟩

/-- A node of its own. -/
theorem node (h : Notes body next es cs) : Notes (node kind body) next [.node kind es] cs := by
  intro before ts rest errors m hts hrest
  obtain ⟨noted, n, hnoted, hn⟩ := h [] ts rest errors m (by simpa using hts) hrest
  have hgroup : Reads Production.body (Grammar.node kind body)
      ⟨ts ++ rest, before.reverse, errors, false, none, m⟩ _ := .group (.enclose hn)
  exact ⟨noted, n, hnoted, by simpa using hgroup⟩

/-- The first instruction has nothing to read. -/
theorem nil_seq (hf : Yields f next' []) (hg : Notes g next es cs)
    (hnext : ∀ a, Begins (kindsOf es) next a → next' a) : Notes (.seq f g) next es cs :=
  hf.notes.seq hg fun a ha => hnext a ha.begins

/-- A text is read as a tree if its tokens are those of the tree and are read as it. -/
theorem parse_eq {root : Element} (h : Notes (.call .compilationUnit) Done [root] cs)
    (hlex : Lexes .normal root.leaves) :
    ∃ errors, parse root.text = ⟨root, [], errors⟩ ∧ errors.map SyntaxError.complaint = cs := by
  obtain ⟨noted, hnoted, hparse⟩ := Yields.exists_parse_eq
    (P := fun errors => errors.map SyntaxError.complaint = cs.reverse) hlex fun ts e hts he =>
      have ⟨noted, n, hnoted, hn⟩ := h [] ts [e] [] 0 hts ⟨e, rfl, he⟩
      ⟨noted, n, hnoted, by simpa using hn⟩
  exact ⟨noted.reverse, hparse, by rw [List.map_reverse, hnoted, List.reverse_reverse]⟩

/-- A file with one declaration, which its first token announces. -/
theorem file {e : Element}
    (hdeclarations : Production.declarations.body = (.recovered >> .look choose))
    (hchoose : ∀ a : Ahead, a.current = k → choose a = (.call p >> .call .declarations))
    (h : Notes (.call p) Done [e] cs) (he : First k [e]) :
    Notes (.call .compilationUnit) Done [.node .compilationUnit [e]] cs := by
  have hone := h.seq Yields.no_declarations.notes fun _ ha => ha.nil rfl
  rw [List.append_nil, List.append_nil] at hone
  have hrecovered : Yields .recovered (fun _ => True) [] := .recovered
  have hall : Notes (.call .declarations) Done [e] cs :=
    .call (hdeclarations ▸ nil_seq hrecovered (hone.look fun a ha =>
      hchoose a (ha.begins.current_of_first he)) fun _ _ => trivial)
  have hend : Yields .trivia Done [] := Yields.mono (.trivia nofun) fun _ ha => ha.tight
  have hunit := hall.seq hend.notes fun _ ha => ha.nil rfl
  rw [List.append_nil, List.append_nil] at hunit
  exact .call hunit.node

end Notes

namespace LedNotes

theorem notes (h : LedNotes g next es cs) : Notes g next es cs :=
  h [] nofun

theorem seq (hf : LedNotes f next' es cs) (hg : Notes g next es' ds)
    (hnext : ∀ a, Begins (kindsOf es') next a → next' a) :
    LedNotes (.seq f g) next (es ++ es') (cs ++ ds) := by
  intro lead hlead
  rw [← List.append_assoc]
  exact (hf lead hlead).seq hg fun a ha => hnext a ha.begins

theorem look (h : LedNotes g next es cs) (hg : ∀ a, Begins (kindsOf es) next a → choose a = g) :
    LedNotes (.look choose) next es cs :=
  fun lead hlead => (h lead hlead).look fun a ha => hg a (kindsOf_lead hlead es ▸ ha.begins)

theorem call (h : LedNotes p.body next es cs) : LedNotes (.call p) next es cs :=
  fun lead hlead => (h lead hlead).call

theorem when (h : LedNotes body next es cs)
    (htest : ∀ a, Begins (kindsOf es) next a → test a = true) :
    LedNotes (when test body) next es cs :=
  h.look fun a ha => if_pos (htest a ha)

/-- A node that starts at a significant token. -/
theorem inner (h : Notes body next es cs) (hes : Starts k es) :
    LedNotes (inner kind body) next [.node kind es] cs := by
  intro lead hlead
  exact (Yields.trivia hlead).notes.seq h.node fun _ ha => ha.tight (hes.node kind [])

end LedNotes

end Grammar

end RuleLang
