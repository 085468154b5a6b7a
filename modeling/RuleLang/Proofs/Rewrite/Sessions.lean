import RuleLang.Proofs.Rewrite.Outcome
import RuleLang.Rewrite.Session

/-!
# Handles over whole sessions

A session is made by calls that read sources and rewrite the trees read so far, with any handles.
No tree is ever changed, and an identity stands for one tree, so a handle leads to the place that it
was made for or nowhere.

## Main definitions

* `Session.Call`, `Session.perform`, `Session.run` — the calls, and the session after them.
* `Session.Sound` — what every call keeps.
* `Session.KeepsHandles` — what a session and its continuation promise of trees and handles.

## Main statements

* `Session.sound_run` — sessions are sound.
* `Session.keepsHandles_run` — handles stay with their tree.
-/

namespace RuleLang

namespace TreeIndex

variable {i : TreeIndex} {identity : Stamped.Identity}

theorem identity_of_lastBefore? {n m : Nat} (h : i.lastBefore? identity m = some n) :
    ∃ p, i.places[n]? = some p ∧ p.identity = identity := by
  induction m with
  | zero => cases h
  | succ m ih =>
    rw [lastBefore?] at h
    split at h
    · rename_i hany
      cases h
      obtain ⟨p, hp, hidentity⟩ := (Option.any_eq_true ..).1 hany
      exact ⟨p, hp, of_decide_eq_true hidentity⟩
    · exact ih h

/-- A handle is of the tree that it was made from, and leads to a place with the identity that it was
made for. -/
theorem of_handleOf? {h : Handle} (hh : i.handleOf? identity = some h) :
    h.tree = i.tree ∧ ∃ p, i.places[h.index]? = some p ∧ p.identity = identity := by
  obtain ⟨n, hn, rfl⟩ := Option.map_eq_some_iff.1 hh
  exact ⟨rfl, identity_of_lastBefore? hn⟩

end TreeIndex

namespace Document

variable {config : ParserConfig} {id : TreeId} {sourceId : String} {d : Document}

theorem id_of_read {source : List Char} (h : read config id sourceId source = .ok d) :
    d.tree.id = id := by
  rw [read] at h
  split at h
  · cases h
  · cases h
    rfl

theorem id_of_readBytes {bytes : List UInt8} (h : readBytes config id sourceId bytes = .ok d) :
    d.tree.id = id := by
  rw [readBytes] at h
  split at h
  · exact id_of_read h
  · cases h

end Document

/-! ## A single batch -/

namespace SyntaxTree

/-- A batch with an edit fails with the first handle that leads nowhere, or makes a tree with the
given identity. -/
theorem apply_of_ne_nil (config : RewriteConfig) (id : TreeId) (tree : SyntaxTree) {edits : List Edit}
    (hne : edits ≠ []) :
    match edits.find? fun e => !tree.reaches e.handle with
    | some e => tree.apply config id edits = .error (tree.staleness e.handle)
    | none => ∃ r, tree.apply config id edits = .ok r ∧ r.tree.id = id := by
  have hbatch := resolve_batch tree edits
  cases hfind : edits.find? fun e => !tree.reaches e.handle with
  | some e =>
    simp only [hfind] at hbatch
    rw [apply, if_neg (by simpa using hne)]
    simp only [hbatch, Except.map]
  | none =>
    simp only [hfind] at hbatch
    obtain ⟨targeted, hok, -, -⟩ := hbatch
    exact ⟨_, apply_of_resolve id hne hok, rfl⟩

/-- The outcome of a batch has the new identity or is the tree itself. -/
theorem id_of_apply {config : RewriteConfig} {id : TreeId} {tree : SyntaxTree} {edits : List Edit}
    {r : Rewritten} (h : tree.apply config id edits = .ok r) : r.tree.id = id ∨ r.tree = tree := by
  by_cases hne : edits = []
  · subst hne
    cases h
    exact .inr rfl
  · have happly := apply_of_ne_nil config id tree hne
    split at happly
    · rw [happly] at h
      cases h
    · obtain ⟨r', hr', hid⟩ := happly
      rw [hr'] at h
      cases h
      exact .inl hid

theorem reaches_eq_false_of_tree_ne {tree : SyntaxTree} {h : Handle} (hne : h.tree ≠ tree.id) :
    tree.reaches h = false := by
  simp [reaches, hne]

end SyntaxTree

namespace Session

/-! ## Calls -/

inductive Call where
  | parse (config : ParserConfig) (sourceId : String) (source : List Char)
  | parseBytes (config : ParserConfig) (sourceId : String) (bytes : List UInt8)
  | apply (config : RewriteConfig) (slot : Nat) (edits : List Edit)
  | replace (slot : Nat) (handle : Handle) (action : Action)

/-- Reads bytes as a new tree. -/
def parseBytes (s : Session) (config : ParserConfig) (sourceId : String) (bytes : List UInt8) :
    Except Failure (Document × Session) :=
  (Document.readBytes config s.nextId sourceId bytes).map fun d => (d, s.add d.tree)

/-- The session after a call. It stays as it is if the call fails. -/
def after {α : Type} (s : Session) : Except Failure (α × Session) → Session
  | .ok (_, s') => s'
  | .error _ => s

/-- Makes a call. A slot without a tree has nothing to rewrite. -/
def perform (s : Session) : Call → Session
  | .parse config sourceId source => s.after (s.parse config sourceId source)
  | .parseBytes config sourceId bytes => s.after (s.parseBytes config sourceId bytes)
  | .apply config slot edits =>
    match s.tree? slot with
    | some t => s.after (s.apply config t edits)
    | none => s
  | .replace slot handle action =>
    match s.tree? slot with
    | some t => s.after (s.replace t handle action)
    | none => s

/-- The session after calls, one after another. -/
def run (s : Session) (calls : List Call) : Session :=
  calls.foldl perform s

/-! ## One call -/

/-- What a call does to a session: nothing, or it adds a tree with the next identity or a tree of the
session. -/
inductive Extends (s : Session) : Session → Prop where
  | same : Extends s s
  | fresh {t : SyntaxTree} (h : t.id = s.nextId) : Extends s (s.add t)
  | again {t : SyntaxTree} (h : t ∈ s.trees) : Extends s (s.add t)

variable {s s' : Session}

theorem extends_after {α β : Type} {x : Except Failure α} {f : α → β} {tree : α → SyntaxTree}
    (h : ∀ a, x = .ok a → (tree a).id = s.nextId ∨ tree a ∈ s.trees) :
    s.Extends (s.after (x.map fun a => (f a, s.add (tree a)))) := by
  cases x with
  | error e => exact .same
  | ok a => exact (h a rfl).elim .fresh .again

theorem extends_apply (config : RewriteConfig) {t : SyntaxTree} (ht : t ∈ s.trees)
    (edits : List Edit) : s.Extends (s.after (s.apply config t edits)) := by
  refine extends_after fun r hr => (SyntaxTree.id_of_apply hr).imp_right fun htree => ?_
  rwa [htree]

theorem extends_replace {t : SyntaxTree} (ht : t ∈ s.trees) (handle : Handle) (action : Action) :
    s.Extends (s.after (s.replace t handle action)) := by
  refine extends_after fun u hu => ?_
  rw [SyntaxTree.replace] at hu
  cases happly : t.apply {} s.nextId [⟨handle, action⟩] with
  | error e =>
    rw [happly] at hu
    cases hu
  | ok r =>
    rw [happly] at hu
    cases hu
    refine (SyntaxTree.id_of_apply happly).imp_right fun htree => ?_
    rwa [htree]

theorem extends_perform (s : Session) (call : Call) : s.Extends (s.perform call) := by
  cases call with
  | parse config sourceId source => exact extends_after fun d hd => .inl (Document.id_of_read hd)
  | parseBytes config sourceId bytes =>
    exact extends_after fun d hd => .inl (Document.id_of_readBytes hd)
  | apply config slot edits =>
    rw [perform]
    split
    · rename_i t ht
      exact extends_apply config (Array.mem_of_getElem? ht) edits
    · exact .same
  | replace slot handle action =>
    rw [perform]
    split
    · rename_i t ht
      exact extends_replace (Array.mem_of_getElem? ht) handle action
    · exact .same

/-! ## What every call keeps -/

/-- Identities are given out in order, and each of them to one tree. -/
structure Sound (s : Session) : Prop where
  id_lt : ∀ t ∈ s.trees, t.id < s.nextId
  eq_of_id : ∀ t ∈ s.trees, ∀ u ∈ s.trees, t.id = u.id → t = u

theorem Sound.empty : Sound {} :=
  ⟨by simp, by simp⟩

namespace Extends

theorem sound (h : s.Extends s') (hs : s.Sound) : s'.Sound := by
  cases h with
  | same => exact hs
  | @fresh t hid =>
    have hne (u : SyntaxTree) (hu : u ∈ s.trees) : u.id ≠ t.id := by
      rw [hid]
      exact Nat.ne_of_lt (hs.id_lt u hu)
    refine ⟨fun u hu => ?_, fun u hu v hv huv => ?_⟩
    · rw [add, if_pos hid]
      rcases Array.mem_push.1 hu with hu | rfl
      · exact Nat.lt_succ_of_lt (hs.id_lt u hu)
      · exact hid ▸ Nat.lt_succ_self _
    · rcases Array.mem_push.1 hu with hold | rfl <;> rcases Array.mem_push.1 hv with hold' | rfl
      · exact hs.eq_of_id u hold v hold' huv
      · exact absurd huv (hne u hold)
      · exact absurd huv.symm (hne v hold')
      · rfl
  | @again t ht =>
    have hmem (u : SyntaxTree) (hu : u ∈ (s.add t).trees) : u ∈ s.trees := by
      rcases Array.mem_push.1 hu with hu | rfl
      · exact hu
      · exact ht
    have hid : t.id ≠ s.nextId := Nat.ne_of_lt (hs.id_lt t ht)
    refine ⟨fun u hu => ?_, fun u hu v hv => hs.eq_of_id u (hmem u hu) v (hmem v hv)⟩
    rw [add, if_neg hid]
    exact hs.id_lt u (hmem u hu)

theorem tree? (h : s.Extends s') {slot : Nat} {t : SyntaxTree} (ht : s.tree? slot = some t) :
    s'.tree? slot = some t := by
  have hpush (u : SyntaxTree) : (s.add u).tree? slot = some t := by
    have hlt : slot ≠ s.trees.size := Nat.ne_of_lt (Array.getElem?_eq_some_iff.1 ht).1
    rw [Session.tree?, add, Array.getElem?_push, if_neg hlt]
    exact ht
  cases h with
  | same => exact ht
  | fresh => exact hpush _
  | again => exact hpush _

end Extends

/-! ## Whole sessions -/

theorem sound_run (hs : s.Sound) (calls : List Call) : (s.run calls).Sound := by
  induction calls generalizing s with
  | nil => exact hs
  | cons call calls ih => exact ih ((extends_perform s call).sound hs)

theorem tree?_run (calls : List Call) {slot : Nat} {t : SyntaxTree} (ht : s.tree? slot = some t) :
    (s.run calls).tree? slot = some t := by
  induction calls generalizing s with
  | nil => exact ht
  | cons call calls ih => exact ih ((extends_perform s call).tree? ht)

theorem mem_run (calls : List Call) {t : SyntaxTree} (ht : t ∈ s.trees) :
    t ∈ (s.run calls).trees := by
  obtain ⟨slot, hslot⟩ := Array.mem_iff_getElem?.1 ht
  exact Array.mem_of_getElem? (tree?_run calls hslot)

/-- What a session `s'` that goes on from `s` promises. -/
structure KeepsHandles (s s' : Session) : Prop where
  /-- No tree is lost or changed. -/
  tree? : ∀ slot t, s.tree? slot = some t → s'.tree? slot = some t
  /-- Two trees with one identity are one tree. -/
  eq_of_id : ∀ t ∈ s'.trees, ∀ u ∈ s'.trees, t.id = u.id → t = u
  /-- A handle leads to the place that it was made for in the tree that it was made from, and nowhere
  in any other. -/
  get? : ∀ u ∈ s.trees, ∀ identity h, u.index.handleOf? identity = some h → ∀ t ∈ s'.trees,
    if t.id = u.id then
      ∃ p, t.index.get? h = some p ∧ u.index.get? h = some p ∧ p.identity = identity
    else t.index.get? h = none
  /-- An empty batch returns the tree itself. -/
  apply_nil : ∀ config, ∀ t ∈ s'.trees,
    s'.apply config t [] = .ok (⟨t, [], 0, 0⟩, ⟨s'.trees.push t, s'.nextId⟩)
  /-- A batch with an edit fails with the first handle that leads nowhere. Otherwise it adds a tree
  with an identity that no tree has had. -/
  apply : ∀ config, ∀ t ∈ s'.trees, ∀ edits, edits ≠ [] →
    match edits.find? fun e => !t.reaches e.handle with
    | some e => s'.apply config t edits = .error (t.staleness e.handle)
    | none => ∃ r nextId, s'.apply config t edits = .ok (r, ⟨s'.trees.push r.tree, nextId⟩) ∧
        ∀ u ∈ s'.trees, u.id ≠ r.tree.id
  /-- So does a single edit. -/
  replace : ∀ t ∈ s'.trees, ∀ h action,
    if t.reaches h = true then
      ∃ r nextId, s'.replace t h action = .ok (r, ⟨s'.trees.push r, nextId⟩) ∧
        ∀ u ∈ s'.trees, u.id ≠ r.id
    else s'.replace t h action = .error (t.staleness h)
  /-- A batch with a handle that was made from a tree with another identity fails. -/
  stale : ∀ u ∈ s.trees, ∀ identity h, u.index.handleOf? identity = some h →
    ∀ config, ∀ t ∈ s'.trees, t.id ≠ u.id → ∀ edits : List Edit, (∃ e ∈ edits, e.handle = h) →
      ∃ e ∈ edits, t.reaches e.handle = false ∧
        s'.apply config t edits = .error (t.staleness e.handle)

/-! ### One rewrite -/

theorem Sound.apply_nil (hs : s.Sound) (config : RewriteConfig) {t : SyntaxTree} (ht : t ∈ s.trees) :
    s.apply config t [] = .ok (⟨t, [], 0, 0⟩, ⟨s.trees.push t, s.nextId⟩) := by
  have hid : t.id ≠ s.nextId := Nat.ne_of_lt (hs.id_lt t ht)
  have hadd : s.add t = ⟨s.trees.push t, s.nextId⟩ := by
    rw [add, if_neg hid]
  rw [Session.apply, SyntaxTree.apply, ← hadd]
  rfl

theorem Sound.apply (hs : s.Sound) (config : RewriteConfig) (t : SyntaxTree) {edits : List Edit}
    (hne : edits ≠ []) :
    match edits.find? fun e => !t.reaches e.handle with
    | some e => s.apply config t edits = .error (t.staleness e.handle)
    | none => ∃ r nextId, s.apply config t edits = .ok (r, ⟨s.trees.push r.tree, nextId⟩) ∧
        ∀ u ∈ s.trees, u.id ≠ r.tree.id := by
  have happly := t.apply_of_ne_nil config s.nextId hne
  cases hfind : edits.find? fun e => !t.reaches e.handle with
  | some e =>
    simp only [hfind] at happly
    rw [Session.apply, happly]
    rfl
  | none =>
    simp only [hfind] at happly
    obtain ⟨r, hr, hid⟩ := happly
    refine ⟨r, _, by rw [Session.apply, hr]; rfl, fun u hu => ?_⟩
    rw [hid]
    exact Nat.ne_of_lt (hs.id_lt u hu)

theorem Sound.replace (hs : s.Sound) (t : SyntaxTree) (h : Handle) (action : Action) :
    if t.reaches h = true then
      ∃ r nextId, s.replace t h action = .ok (r, ⟨s.trees.push r, nextId⟩) ∧
        ∀ u ∈ s.trees, u.id ≠ r.id
    else s.replace t h action = .error (t.staleness h) := by
  have happly := t.apply_of_ne_nil {} s.nextId (List.cons_ne_nil (Edit.mk h action) [])
  cases hr : t.reaches h with
  | true =>
    simp only [List.find?_cons, hr, Bool.not_true, List.find?_nil] at happly
    obtain ⟨r, hok, hid⟩ := happly
    refine ⟨r.tree, _, by rw [Session.replace, SyntaxTree.replace, hok]; rfl, fun u hu => ?_⟩
    rw [hid]
    exact Nat.ne_of_lt (hs.id_lt u hu)
  | false =>
    simp only [List.find?_cons, hr, Bool.not_false] at happly
    rw [if_neg Bool.false_ne_true, Session.replace, SyntaxTree.replace, happly]
    rfl

/-! ### Handles of a session -/

theorem Sound.get? (hs : s.Sound) {t u : SyntaxTree} (ht : t ∈ s.trees) (hu : u ∈ s.trees)
    {identity : Stamped.Identity} {h : Handle} (hh : u.index.handleOf? identity = some h) :
    if t.id = u.id then
      ∃ p, t.index.get? h = some p ∧ u.index.get? h = some p ∧ p.identity = identity
    else t.index.get? h = none := by
  obtain ⟨htree, p, hp, hidentity⟩ := TreeIndex.of_handleOf? hh
  split
  · rename_i hid
    obtain rfl := hs.eq_of_id t ht u hu hid
    have hget : t.index.get? h = some p := by
      rw [TreeIndex.get?, if_pos htree, hp]
    exact ⟨p, hget, hget, hidentity⟩
  · rename_i hid
    rw [TreeIndex.get?, if_neg fun heq => hid (heq.symm.trans htree)]

theorem Sound.stale (hs : s.Sound) {t u : SyntaxTree} {identity : Stamped.Identity} {h : Handle}
    (hh : u.index.handleOf? identity = some h) (config : RewriteConfig) (hid : t.id ≠ u.id)
    {edits : List Edit} (he : ∃ e ∈ edits, e.handle = h) :
    ∃ e ∈ edits, t.reaches e.handle = false ∧
      s.apply config t edits = .error (t.staleness e.handle) := by
  obtain ⟨e, he, rfl⟩ := he
  obtain ⟨htree, -⟩ := TreeIndex.of_handleOf? hh
  have hreaches : t.reaches e.handle = false :=
    SyntaxTree.reaches_eq_false_of_tree_ne fun heq => hid (heq.symm.trans htree)
  have happly := hs.apply config t (List.ne_nil_of_mem he)
  cases hfind : edits.find? fun e => !t.reaches e.handle with
  | none =>
    have := List.find?_eq_none.1 hfind e he
    simp [hreaches] at this
  | some first =>
    simp only [hfind] at happly
    exact ⟨first, List.mem_of_find?_eq_some hfind, by simpa using List.find?_some hfind, happly⟩

/-- Handles stay with their tree, whatever calls are made with them. -/
theorem keepsHandles_run (earlier later : List Call) :
    KeepsHandles (run {} earlier) (run {} (earlier ++ later)) := by
  have hs := sound_run .empty (earlier ++ later)
  have hrun : run {} (earlier ++ later) = (run {} earlier).run later := List.foldl_append ..
  rw [hrun] at hs ⊢
  exact {
    tree? := fun slot t => tree?_run later
    eq_of_id := hs.eq_of_id
    get? := fun u hu identity h hh t ht => hs.get? ht (mem_run later hu) hh
    apply_nil := fun config t ht => hs.apply_nil config ht
    apply := fun config t _ edits hne => hs.apply config t hne
    replace := fun t _ h action => hs.replace t h action
    stale := fun u _ identity h hh config t _ hid edits he => hs.stale hh config hid he }

/-- Of two trees of one text neither takes a handle of the other. -/
example :
    let s := run {} [.parse {} "a" "package a".toList, .parse {} "b" "package a".toList]
    (s.trees.map fun t => (t.id, t.text)) = #[(0, "package a".toList), (1, "package a".toList)] ∧
      (s.trees.map fun t => match s.apply {} t [⟨⟨1, 0⟩, .delete⟩] with
        | .error e => some e
        | .ok _ => none) = #[some (.staleHandle ⟨1, 0⟩ (.otherTree 0)), none] := by
  decide +kernel

end Session

end RuleLang
