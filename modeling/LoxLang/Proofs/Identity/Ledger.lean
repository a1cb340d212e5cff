import LoxLang.Proofs.Identity.Reading
import LoxLang.Proofs.Identity.Resolving

/-!
# The identity of sites in a session

A session may draw the numbers of its sites while it reads, and keep one table with the bindings of
all lines it has accepted, in which the distances of a site are looked up (`Ledger`). The next
number only grows, so no two sites in the trees that its readings have returned bear the same one
(`Ledger.Sound.nodup`), whether a tree was accepted or not. Lines bind only their own sites, so what
is added to the table is about sites that are not in it, and a line keeps its distances for the rest
of the session (`Ledger.Sound.link_table`). Such a session comes to the outcomes of one that numbers
each tree after reading and links it with its own bindings alone (`Ledger.Sound.steps_eq`).
-/

namespace LoxLang

/-- What is read of a source, if reading returns a tree. -/
def Style.tree? (style : Style) (source : String) : Option (Line Unit) :=
  (style.read (Token.scan source)).toOption

/-- The tree of a source, and its code if it is accepted. -/
def Style.result? (style : Style) (source : String) :
    Option (Line Unit × Option (Line (Option Nat))) :=
  (style.tree? source).map (·, (style.code source).toOption)

/-- What is drawn is what is read. -/
theorem Style.tree?_of_draw {style : Style} {source : String} {line : Line Nat} {n next : Nat}
    (h : style.draw (Token.scan source) n = (.ok line, next)) :
    style.tree? source = some (line.map fun _ => ()) := by
  rw [tree?, ← style.draw_bare _ n, h]
  rfl

/-- The code of a source, from what is read. -/
theorem Style.code_eq (style : Style) (source : String) :
    style.code source = match style.read (Token.scan source) with
      | .error es => .error ((LexicalError.scan source).map LexicalError.diagnostic ++
          es.map GrammarError.diagnostic)
      | .ok bare =>
        if LexicalError.scan source = [] then
          match (bare.label 0).1.bindings with
          | .error es => .error (es.map ScopeError.diagnostic)
          | .ok b => .ok ((bare.label 0).1.link b)
        else .error ((LexicalError.scan source).map LexicalError.diagnostic) := by
  unfold code
  rw [readSource_eq]
  cases style.read (Token.scan source) with
  | error es => rfl
  | ok bare =>
    dsimp only
    split_ifs <;> rfl

/-- A tree that a reading of a session has returned, and its bindings if it was accepted. -/
structure Parse where
  line : Line Nat
  accepted? : Option Bindings

namespace Parse

/-- What the parse has added to the table of the session. -/
def added (p : Parse) : Bindings := p.accepted?.getD []

/-- The numbers of the sites that the parse has bound. -/
def keys (p : Parse) : List Nat := p.added.map Prod.fst

/-- The tree as it was read, and with its distances if it was accepted. -/
def result (p : Parse) : Line Unit × Option (Line (Option Nat)) :=
  (p.line.map fun _ => (), p.accepted?.map p.line.link)

end Parse

/-- A session that draws the numbers of its sites while it reads: the machine, the next number, the
distances of all accepted sites, and all trees that were returned. The latest stand first. The next
number is a natural number and never runs out. A counter of 64 bits has the same value as long as
fewer than 2 ^ 64 numbers have been drawn, and then begins anew. -/
structure Ledger where
  machine : Machine
  next : Nat
  table : Bindings
  parses : List Parse

namespace Ledger

/-- A session at its start. -/
def start (m : Machine) (next : Nat) : Ledger := ⟨m, next, [], []⟩

/-- Runs a source. Its distances are looked up among those of the whole session. -/
def step (l : Ledger) (fuel : Nat) (style : Style) (source : String) : Outcome × Ledger :=
  let lexical := (LexicalError.scan source).map LexicalError.diagnostic
  match style.draw (Token.scan source) l.next with
  | (.error es, next) =>
    (⟨.empty, .rejected (lexical ++ es.map GrammarError.diagnostic)⟩, { l with next })
  | (.ok line, next) =>
    let refused := { l with next, parses := ⟨line, none⟩ :: l.parses }
    if LexicalError.scan source = [] then
      match line.bindings with
      | .error es => (⟨.empty, .rejected (es.map ScopeError.diagnostic)⟩, refused)
      | .ok b =>
        let table := b ++ l.table
        let (outcome, s) := (Session.mk l.machine next).perform fuel (line.link table)
        (outcome, ⟨s.machine, next, table, ⟨line, some b⟩ :: l.parses⟩)
    else (⟨.empty, .rejected lexical⟩, refused)

/-- Runs sources in order. -/
def steps (l : Ledger) (fuel : Nat) : List (Style × String) → List Outcome × Ledger
  | [] => ([], l)
  | (style, source) :: rest =>
    let (outcome, l) := l.step fuel style source
    let (outcomes, l) := l.steps fuel rest
    (outcome :: outcomes, l)

variable {l : Ledger} {fuel : Nat} {style : Style} {source : String}

/-! ## What a step does -/

/-- What a step may come to: there is no tree, or there is one but the source is rejected, or the
source is accepted. -/
inductive Stepped (l : Ledger) (fuel : Nat) (style : Style) (source : String) :
    Outcome × Ledger → Prop
  | unread {ds : List Diagnostic} {next : Nat} : style.code source = .error ds →
      style.tree? source = none → l.next ≤ next →
      Stepped l fuel style source (⟨.empty, .rejected ds⟩, { l with next })
  | refused {ds : List Diagnostic} {line : Line Nat} {next : Nat} : style.code source = .error ds →
      style.draw (Token.scan source) l.next = (.ok line, next) →
      Stepped l fuel style source
        (⟨.empty, .rejected ds⟩, { l with next, parses := ⟨line, none⟩ :: l.parses })
  | accepted {line : Line Nat} {next : Nat} {b : Bindings} :
      style.code source = .ok (line.link b) →
      style.draw (Token.scan source) l.next = (.ok line, next) → line.bindings = .ok b →
      Stepped l fuel style source
        (((Session.mk l.machine next).perform fuel (line.link (b ++ l.table))).1,
          ⟨((Session.mk l.machine next).perform fuel (line.link (b ++ l.table))).2.machine, next,
            b ++ l.table, ⟨line, some b⟩ :: l.parses⟩)

/-- A step rejects a source that has no code, and otherwise runs its code. -/
theorem stepped (l : Ledger) (fuel : Nat) (style : Style) (source : String) :
    Stepped l fuel style source (l.step fuel style source) := by
  have hread := style.draw_bare (Token.scan source) l.next
  have hle := style.le_draw (Token.scan source) l.next
  have hcode := style.code_eq source
  unfold step
  rcases hdraw : style.draw (Token.scan source) l.next with ⟨es | line, next⟩
  · rw [hdraw] at hread hle
    rw [← hread] at hcode
    exact .unread hcode (congrArg Except.toOption hread.symm) hle
  · have hnodup := (style.marks_draw (Token.scan source) l.next (congrArg Prod.fst hdraw)).1
    rw [hdraw] at hread
    rw [← hread] at hcode
    dsimp only [Except.map] at hcode ⊢
    split
    next hlexical =>
      rw [if_pos hlexical] at hcode
      rcases line.bindings_of_nodup hnodup with ⟨es, hbare, hline⟩ | ⟨b₀, b, hbare, hline, hlink⟩
      · simp only [hbare] at hcode
        simp only [hline]
        exact .refused hcode hdraw
      · simp only [hbare] at hcode
        simp only [hline]
        exact .accepted (hcode.trans (congrArg _ hlink.symm)) hdraw hline
    next hlexical =>
      rw [if_neg hlexical] at hcode
      exact .refused hcode hdraw

/-! ## What holds of every ledger -/

/-- The sites of all trees have different numbers below the next one, and the table holds what the
accepted trees have added. -/
structure Sound (l : Ledger) : Prop where
  below : ∀ p ∈ l.parses, ∀ k ∈ p.line.marks, k < l.next
  nodup : (l.parses.flatMap (·.line.marks)).Nodup
  accepted : ∀ p ∈ l.parses, ∀ b ∈ p.accepted?, p.line.bindings = .ok b
  table : l.table = l.parses.flatMap Parse.added

namespace Sound

variable {l' : Ledger} {p : Parse} {k d : Nat}

theorem start (m : Machine) (next : Nat) : (Ledger.start m next).Sound :=
  ⟨nofun, List.nodup_nil, nofun, rfl⟩

/-- A tree that is drawn has new numbers. -/
theorem record (h : l.Sound) (m : Machine) {line : Line Nat} {next : Nat}
    (hdraw : style.draw (Token.scan source) l.next = (.ok line, next))
    (accepted? : Option Bindings) (haccepted : ∀ b ∈ accepted?, line.bindings = .ok b) :
    Sound ⟨m, next, accepted?.getD [] ++ l.table, ⟨line, accepted?⟩ :: l.parses⟩ := by
  have hle := style.le_draw (Token.scan source) l.next
  have hmarks := style.marks_draw (Token.scan source) l.next (congrArg Prod.fst hdraw)
  rw [hdraw] at hle hmarks
  refine ⟨?_, ?_, ?_, ?_⟩
  · refine List.forall_mem_cons.2 ⟨fun k hk => (hmarks.2 k hk).2, fun p hp k hk => ?_⟩
    exact (h.below p hp k hk).trans_le hle
  · rw [List.flatMap_cons, List.nodup_append]
    refine ⟨hmarks.1, h.nodup, fun k hk i hi hki => ?_⟩
    obtain ⟨p, hp, hi⟩ := List.mem_flatMap.1 hi
    exact absurd (h.below p hp i hi) (Nat.not_lt.2 (hki ▸ (hmarks.2 k hk).1))
  · exact List.forall_mem_cons.2 ⟨haccepted, h.accepted⟩
  · rw [List.flatMap_cons, h.table]
    rfl

theorem step (h : l.Sound) (fuel : Nat) (style : Style) (source : String) :
    (l.step fuel style source).2.Sound := by
  have hstep := l.stepped fuel style source
  generalize l.step fuel style source = r at hstep
  cases hstep with
  | unread _ _ hle =>
    exact ⟨fun p hp k hk => (h.below p hp k hk).trans_le hle, h.nodup, h.accepted, h.table⟩
  | refused _ hdraw => exact h.record l.machine hdraw none fun _ hb => nomatch hb
  | @accepted line next b _ hdraw hb =>
    exact h.record _ hdraw (some b) fun b' hb' => Option.some.inj hb' ▸ hb

theorem steps (h : l.Sound) (fuel : Nat) (sources : List (Style × String)) :
    (l.steps fuel sources).2.Sound := by
  induction sources generalizing l with
  | nil => exact h
  | cons first rest ih => exact ih (h.step fuel first.1 first.2)

/-! ## The table -/

/-- Only sites of the tree are bound. -/
theorem mem_marks_of_keys (h : l.Sound) (hp : p ∈ l.parses) (hk : k ∈ p.keys) :
    k ∈ p.line.marks := by
  have haccepted := h.accepted p hp
  unfold Parse.keys Parse.added at hk
  cases hb : p.accepted? with
  | none =>
    rw [hb] at hk
    cases hk
  | some b =>
    rw [hb] at hk haccepted
    obtain ⟨q, hq, rfl⟩ := List.mem_map.1 hk
    exact Line.mem_marks_of_bindings (haccepted b rfl) q hq

/-- Different parses bind different sites. -/
theorem disjoint_keys (h : l.Sound) : l.parses.Pairwise fun p q => p.keys.Disjoint q.keys := by
  have hnodup := (List.nodup_flatMap.1 h.nodup).2
  refine hnodup.imp_of_mem fun hp hq hdisjoint k hkp hkq => ?_
  exact hdisjoint (h.mem_marks_of_keys hp hkp) (h.mem_marks_of_keys hq hkq)

/-- Nothing is found among parses that do not bind a site. -/
private theorem lookup_eq_none {ps : List Parse} (h : ∀ p ∈ ps, k ∉ p.keys) :
    (ps.flatMap Parse.added).lookup k = none := by
  rw [List.lookup_eq_none_iff]
  intro q hq
  obtain ⟨p, hp, hq⟩ := List.mem_flatMap.1 hq
  exact bne_iff_ne.2 fun hk => h p hp (List.mem_map.2 ⟨q, hq, hk.symm⟩)

/-- What the table says about a site is what its own parse has added. -/
theorem distance?_table (h : l.Sound) (hp : p ∈ l.parses) (hk : k ∈ p.line.marks) :
    l.table.distance? k = p.added.distance? k := by
  obtain ⟨after, before, hparses⟩ := List.append_of_mem hp
  have hdisjoint := (List.nodup_flatMap.1 h.nodup).2
  have hother : ∀ q ∈ after ++ before, k ∉ q.keys := by
    rw [hparses, List.pairwise_middle List.disjoint_symm,
      List.pairwise_cons] at hdisjoint
    refine fun q hq hkq => hdisjoint.1 q hq hk (h.mem_marks_of_keys ?_ hkq)
    exact hparses ▸ (List.mem_append.1 hq).elim (List.mem_append_left _)
      fun hq => List.mem_append_right _ (.tail _ hq)
  have hafter := lookup_eq_none fun q hq => hother q (List.mem_append_left _ hq)
  have hbefore := lookup_eq_none fun q hq => hother q (List.mem_append_right _ hq)
  rw [h.table, hparses, List.flatMap_append, List.flatMap_cons]
  unfold Bindings.distance?
  rw [List.lookup_append, List.lookup_append, hafter, hbefore, Option.none_or, Option.or_none]

/-- A line that has been accepted keeps its distances. -/
theorem link_table (h : l.Sound) (hp : p ∈ l.parses) {b : Bindings} (hb : b ∈ p.accepted?) :
    p.line.link l.table = p.line.link b := by
  have hadded : p.added = b := by
    unfold Parse.added
    rw [hb]
    rfl
  exact Line.map_congr fun k hk => (h.distance?_table hp hk).trans (hadded ▸ rfl)

/-- An entry of the table stays what it is. -/
theorem distance?_of_subset (h : l.Sound) (h' : l'.Sound) (hsub : l.parses ⊆ l'.parses)
    (hk : l.table.distance? k = some d) : l'.table.distance? k = some d := by
  obtain ⟨p, hp, hkey⟩ : ∃ p ∈ l.parses, k ∈ p.keys := by
    by_contra hnone
    rw [h.table, Bindings.distance?, lookup_eq_none fun p hp hkey => hnone ⟨p, hp, hkey⟩] at hk
    cases hk
  have hmark := h.mem_marks_of_keys hp hkey
  rw [← hk, h.distance?_table hp hmark, h'.distance?_table (hsub hp) hmark]

end Sound

/-! ## Runs -/

/-- Trees are never forgotten. -/
theorem parses_subset (l : Ledger) (fuel : Nat) (sources : List (Style × String)) :
    l.parses ⊆ (l.steps fuel sources).2.parses := by
  induction sources generalizing l with
  | nil => exact fun _ hp => hp
  | cons first rest ih =>
    refine List.Subset.trans ?_ (ih (l.step fuel first.1 first.2).2)
    have hstep := l.stepped fuel first.1 first.2
    generalize l.step fuel first.1 first.2 = r at hstep
    cases hstep with
    | unread _ _ _ => exact fun _ hp => hp
    | refused _ _ | accepted _ _ _ => exact fun _ hp => .tail _ hp

/-- The trees of a ledger are those that were read, the latest first, and the accepted ones link
to the code of their sources. -/
theorem results_steps (l : Ledger) (fuel : Nat) (sources : List (Style × String)) :
    (l.steps fuel sources).2.parses.map Parse.result =
      (sources.filterMap fun s => s.1.result? s.2).reverse ++ l.parses.map Parse.result := by
  induction sources generalizing l with
  | nil => rfl
  | cons first rest ih =>
    refine (ih (l.step fuel first.1 first.2).2).trans ?_
    have hstep := l.stepped fuel first.1 first.2
    generalize l.step fuel first.1 first.2 = r at hstep
    rw [List.filterMap_cons, Style.result?]
    cases hstep with
    | unread _ htree _ => rw [htree]; rfl
    | refused hcode hdraw | accepted hcode hdraw _ =>
      rw [Style.tree?_of_draw hdraw, hcode, Option.map_some, List.reverse_cons, List.append_assoc]
      rfl

namespace Sound

/-- A source comes to the outcome and the machine it would come to on its own numbers. -/
theorem step_eq (h : l.Sound) (fuel : Nat) (style : Style) (source : String) (n : Nat) :
    ((Session.mk l.machine n).step fuel style source).1 = (l.step fuel style source).1 ∧
      ((Session.mk l.machine n).step fuel style source).2.machine =
        (l.step fuel style source).2.machine := by
  have hstep := l.stepped fuel style source
  have hsound := h.step fuel style source
  generalize l.step fuel style source = r at hstep hsound
  cases hstep with
  | unread hcode _ _ | refused hcode _ =>
    obtain ⟨next, hs⟩ := Session.step_of_code_eq_error (s := ⟨l.machine, n⟩) fuel hcode
    rw [hs]
    exact ⟨rfl, rfl⟩
  | @accepted line next b hcode hdraw hb =>
    obtain ⟨next', hs⟩ := Session.step_of_code_eq_ok (s := ⟨l.machine, n⟩) fuel hcode
    have hlink : line.link (b ++ l.table) = line.link b := hsound.link_table (.head _) rfl
    dsimp only
    rw [hs, hlink, Session.outcome_perform, Session.outcome_perform, Session.machine_perform,
      Session.machine_perform]
    exact ⟨rfl, rfl⟩

/-- **Looking distances up in one table for the whole session changes no outcome.** -/
theorem steps_eq (h : l.Sound) (fuel : Nat) (sources : List (Style × String)) (s : Session)
    (hs : s.machine = l.machine) :
    (s.steps fuel sources).1 = (l.steps fuel sources).1 ∧
      (s.steps fuel sources).2.machine = (l.steps fuel sources).2.machine := by
  induction sources generalizing l s with
  | nil => exact ⟨rfl, hs⟩
  | cons first rest ih =>
    obtain ⟨m, n⟩ := s
    subst hs
    obtain ⟨hout, hmachine⟩ := h.step_eq fuel first.1 first.2 n
    obtain ⟨houts, hlast⟩ := ih (h.step fuel first.1 first.2) _ hmachine
    exact ⟨congrArg₂ List.cons hout houts, hlast⟩

end Sound

/-- A ledger goes on behind its first sources. -/
theorem steps_append (l : Ledger) (fuel : Nat) (before after : List (Style × String)) :
    l.steps fuel (before ++ after) =
      ((l.steps fuel before).1 ++ ((l.steps fuel before).2.steps fuel after).1,
        ((l.steps fuel before).2.steps fuel after).2) := by
  induction before generalizing l with
  | nil => rfl
  | cons first before ih =>
    have h := ih (l.step fuel first.1 first.2).2
    exact congrArg (fun r => ((l.step fuel first.1 first.2).1 :: r.1, r.2)) h

end Ledger

/-- **Sites keep their identity.** Let a session draw the numbers of its sites while it reads, where
trees are thrown away and read once more and a variable may become the target of an assignment, and
look all distances up in one table to which each accepted source adds its bindings.

- Its outcomes and its trees, linked where they are accepted, are those of a session in which every
  tree is numbered and linked on its own.
- No two sites of the trees that its readings return bear the same number, and different sources
  bind different sites.
- What the table says after some of the sources it says after all of them, and it always gives the
  sites of an accepted tree the distances with which the tree was resolved. -/
theorem sites_keep_identity (m : Machine) (next fuel : Nat)
    (earlier later : List (Style × String)) :
    let first := (Ledger.start m next).steps fuel earlier
    let second := first.2.steps fuel later
    (∀ n, ((Session.mk m n).steps fuel (earlier ++ later)).1 = first.1 ++ second.1 ∧
        ((Session.mk m n).steps fuel (earlier ++ later)).2.machine = second.2.machine) ∧
      second.2.parses.map Parse.result =
        ((earlier ++ later).filterMap fun s => s.1.result? s.2).reverse ∧
      (second.2.parses.flatMap fun p => p.line.marks).Nodup ∧
      second.2.parses.Pairwise (fun p q => p.keys.Disjoint q.keys) ∧
      (∀ k d, first.2.table.distance? k = some d → second.2.table.distance? k = some d) ∧
      ∀ p ∈ first.2.parses, ∀ b ∈ p.accepted?,
        p.line.bindings = .ok b ∧ p.line.link second.2.table = p.line.link b := by
  intro first second
  have hstart := Ledger.Sound.start m next
  have hfirst : first.2.Sound := hstart.steps fuel earlier
  have hsecond : second.2.Sound := hfirst.steps fuel later
  have hall : (Ledger.start m next).steps fuel (earlier ++ later) =
      (first.1 ++ second.1, second.2) := Ledger.steps_append _ fuel earlier later
  have hsub : first.2.parses ⊆ second.2.parses := first.2.parses_subset fuel later
  refine ⟨fun n => ?_, ?_, hsecond.nodup, hsecond.disjoint_keys,
    fun k d => hfirst.distance?_of_subset hsecond hsub,
    fun p hp b hb => ⟨hfirst.accepted p hp b hb, hsecond.link_table (hsub hp) hb⟩⟩
  · have heq := hstart.steps_eq fuel (earlier ++ later) ⟨m, n⟩ rfl
    rwa [hall] at heq
  · have hresults := Ledger.results_steps (Ledger.start m next) fuel (earlier ++ later)
    rw [hall] at hresults
    exact hresults.trans (List.append_nil _)

end LoxLang
