import StraightLine.Proofs.Execution
import StraightLine.Proofs.Resolution

/-!
# Removing dead code

The actions that a flow graph calls unreachable can be taken out of a program.  The blocks around
them stay, even when nothing is left inside.

## Main definitions

* `Stmt.withoutDeadCode` — a program without its unreachable actions.

## Main statements

* `Stmt.trail_withoutDeadCode` — on the trail, exactly the late actions are gone.
* `Stmt.trail_withoutDeadCode_cases` — so both trails are the same up to the first return, and
  behind it only blocks are left.
* `Stmt.withoutDeadCode_safe` — what removing dead code preserves.

## Design notes

* **What is removed is asked of the flow graph**, action by action, and not of the program text.
  That the removed actions are those behind the first return is a theorem about the graph.
* **Positions shift only where nothing is left to be numbered.**  An action that stays has only
  actions before it that stay, so it keeps its position; this is the `min` in `kept_spec`.
-/

namespace StraightLine

open Occurrence

/-! ## The program without its dead code -/

namespace Stmt

mutual

/-- What stays of a statement: an unreachable action goes, a block stays with
what stays in it, even if that is nothing.  An empty block still makes a scope,
so taking it out would change the environment at the end of a run. -/
def kept (reachability : Flow.Reachability) (position : Nat) : Stmt → List Stmt
  | .action a => if reachability.isUnreachable position (.action a) then [] else [.action a]
  | .block body => [.block (keptOf reachability position body)]

/-- What stays of statements one after the other. -/
def keptOf (reachability : Flow.Reachability) (position : Nat) : List Stmt → List Stmt
  | [] => []
  | s :: rest =>
    kept reachability position s ++ keptOf reachability (position + s.actionCount) rest

end

/-- A program with the unreachable actions taken out of its blocks.  A single
action is no block, and always reachable, so there is nothing to take out of it. -/
def withoutDeadCode : Stmt → Stmt
  | .action a => .action a
  | .block body => .block (keptOf (Stmt.block body).flow.reachability 0 body)

end Stmt

/-! ## Trails with late actions taken out -/

namespace Step

/-- Whether a step opens a block or is an action before a position.  Blocks pass
the test wherever they stand; that makes the trail of the shorter program a
filter of the longer one. -/
def isBefore (cut : Nat) : Step → Bool
  | .enter _ => true
  | .act _ v => decide (v.position < cut)

theorem vertices_filter_isBefore (cut : Nat) (steps : List Step) :
    vertices (steps.filter (isBefore cut)) =
      (vertices steps).filter fun v => decide (v.position < cut) := by
  induction steps with
  | nil => rfl
  | cons step rest ih =>
      cases step with
      | enter site =>
          rw [List.filter_cons_of_pos rfl, vertices_enter, vertices_enter, ih]
      | act site v =>
          by_cases hv : v.position < cut
          · rw [List.filter_cons_of_pos (by simpa [isBefore] using hv), vertices_act, vertices_act,
              List.filter_cons_of_pos (by simpa using hv), ih]
          · rw [List.filter_cons_of_neg (by simpa [isBefore] using hv), vertices_act,
              List.filter_cons_of_neg (by simpa using hv), ih]

/-- Nothing is taken out of steps whose actions all come early. -/
theorem filter_isBefore_eq_self {cut : Nat} {steps : List Step}
    (h : ∀ v ∈ vertices steps, v.position < cut) : steps.filter (isBefore cut) = steps := by
  refine List.filter_eq_self.mpr fun step hstep => ?_
  cases step with
  | enter site => rfl
  | act site v =>
      have hv : v ∈ vertices steps := List.mem_filterMap.mpr ⟨_, hstep, rfl⟩
      simpa [isBefore] using h v hv

end Step

namespace Stmt

open Step

/-- What is unreachable comes after the live actions.  From here on reachability
in the graph is a comparison of positions. -/
theorem isUnreachable_iff {program : Stmt} {v : Occurrence} (h : v ∈ program.occurrences) :
    program.flow.reachability.isUnreachable v.position (.action v.action) = true ↔
      program.live.length ≤ v.position := by
  have hsplit := program.live_append_drop.symm
  obtain ⟨hearly, hlate⟩ := position_of_append hsplit
  show program.flow.reachability.unreachable.contains v = true ↔ _
  rw [unreachable_flow, List.contains_iff_mem]
  constructor
  · exact hlate v
  · intro hle
    rw [hsplit, List.mem_append] at h
    refine h.resolve_left fun hlive => ?_
    exact absurd (hearly v hlive) (Nat.not_lt.mpr hle)

/-- What stays of a statement when the actions from a position on go: all of its
blocks, and its steps but for the late ones.

The first two parts are there for the third: in a list of statements the rest is
numbered on from what stays of the first one, so the numbers of blocks and
actions that stay have to be known.  The `min` says that positions agree up to
the cut and do not move behind it. -/
theorem kept_spec (reachability : Flow.Reachability) (cut : Nat) :
    (∀ (s : Stmt) (position : Nat),
        (∀ v ∈ number position s.actions,
          (reachability.isUnreachable v.position (.action v.action) = true ↔ cut ≤ v.position)) →
        blockCountOf (kept reachability position s) = s.blockCount ∧
          min position cut + actionCountOf (kept reachability position s) =
            min (position + s.actionCount) cut ∧
          ∀ site block, trailOf site block (min position cut) (kept reachability position s) =
            (s.trailAt site block position).filter (isBefore cut)) ∧
      (∀ (body : List Stmt) (position : Nat),
        (∀ v ∈ number position (actionsOf body),
          (reachability.isUnreachable v.position (.action v.action) = true ↔ cut ≤ v.position)) →
        blockCountOf (keptOf reachability position body) = blockCountOf body ∧
          min position cut + actionCountOf (keptOf reachability position body) =
            min (position + actionCountOf body) cut ∧
          ∀ site block, trailOf site block (min position cut) (keptOf reachability position body) =
            (trailOf site block position body).filter (isBefore cut)) := by
  refine Stmt.induction ?action ?block ?nil ?cons
  case action =>
    intro a position hdead
    have hiff := hdead ⟨position, a⟩ (by simp)
    rw [kept]
    by_cases hcut : cut ≤ position
    · have hbefore : ∀ site, isBefore cut (.act site ⟨position, a⟩) = false := by
        intro site
        simpa [isBefore] using hcut
      -- The action goes, and positions behind the cut are all the same.
      rw [if_pos (hiff.mpr hcut)]
      refine ⟨by simp, ?_, fun site block => ?_⟩
      · rw [actionCountOf_nil, actionCount_action]
        omega
      · rw [trailOf_nil, trailAt_action, List.filter_cons_of_neg (by simp [hbefore])]
        rfl
    · have hbefore : ∀ site, isBefore cut (.act site ⟨position, a⟩) = true := by
        intro site
        simpa [isBefore] using hcut
      -- The action stays, at the position that it has.
      rw [if_neg fun hunreachable => hcut (hiff.mp hunreachable)]
      refine ⟨by simp, ?_, fun site block => ?_⟩
      · rw [actionCountOf_cons, actionCountOf_nil, actionCount_action]
        omega
      · rw [Nat.min_eq_left (by omega), trailOf_cons, trailOf_nil, List.append_nil, trailAt_action,
          List.filter_cons_of_pos (hbefore site)]
        rfl
  case block =>
    intro body ih position hdead
    rw [actions_block] at hdead
    obtain ⟨hblocks, hactions, htrail⟩ := ih position hdead
    rw [kept]
    refine ⟨?_, ?_, fun site block => ?_⟩
    · rw [blockCountOf_cons, blockCount_block, hblocks, blockCount_block, blockCountOf_nil]
      rfl
    · rw [actionCountOf_cons, actionCount_block, actionCountOf_nil, Nat.add_zero, hactions,
        actionCount_block]
    · rw [trailOf_cons, trailOf_nil, List.append_nil, trailAt_block, htrail, trailAt_block,
        List.filter_cons_of_pos rfl]
  case nil =>
    intro position _
    rw [keptOf]
    exact ⟨rfl, by simp, fun site block => by simp⟩
  case cons =>
    intro s rest ihs ihrest position hdead
    rw [actionsOf_cons, number_append, length_actions.1] at hdead
    obtain ⟨hblocks, hactions, htrail⟩ :=
      ihs position fun v hv => hdead v (List.mem_append_left _ hv)
    obtain ⟨hblocks', hactions', htrail'⟩ :=
      ihrest (position + s.actionCount) fun v hv => hdead v (List.mem_append_right _ hv)
    rw [keptOf]
    refine ⟨?_, ?_, fun site block => ?_⟩
    · rw [blockCountOf_append, hblocks, hblocks', blockCountOf_cons]
    · rw [actionCountOf_append, ← Nat.add_assoc, hactions, hactions', actionCountOf_cons,
        Nat.add_assoc]
    · rw [trailOf_append, htrail, hblocks, hactions, htrail', trailOf_cons, List.filter_append]

/-- Of the trail of a program the actions behind the live ones are gone. -/
theorem trail_withoutDeadCode (program : Stmt) :
    program.withoutDeadCode.trail = program.trail.filter (isBefore program.live.length) := by
  cases program with
  | action a =>
      have hlive : (Stmt.action a).live = [⟨0, a⟩] := by simp [live, occurrences]
      rw [hlive]
      refine (filter_isBefore_eq_self fun v hv => ?_).symm
      rw [vertices_trail, withoutDeadCode, occurrences, actions_action] at hv
      exact (position_bounds hv).2
  | block body =>
      have hspec := (kept_spec (Stmt.block body).flow.reachability (Stmt.block body).live.length).2
        body 0 fun v hv => isUnreachable_iff (by rw [occurrences, actions_block]; exact hv)
      have htrail := hspec.2.2 (.block 0) 1
      rw [Nat.zero_min] at htrail
      rw [trail, withoutDeadCode, trailAt_block, Nat.zero_add, htrail, trail, trailAt_block,
        List.filter_cons_of_pos rfl]

/-- The trails with and without dead code agree up to the first return; behind
it no action is left.  Openings of blocks are left there, but a run has stopped
by then, and they make no difference to what resolution records. -/
theorem trail_withoutDeadCode_cases (program : Stmt) :
    program.withoutDeadCode.trail = program.trail ∨
      ∃ before site r after opened, program.trail = before ++ .act site r :: after ∧
        program.withoutDeadCode.trail = before ++ .act site r :: opened ∧
        r.action.isReturn = true ∧ vertices opened = [] := by
  rw [trail_withoutDeadCode]
  rcases Step.vertices_cases program.trail with
    hnone | ⟨before, site, r, after, hsplit, hbefore, hr⟩
  · refine Or.inl (filter_isBefore_eq_self ?_)
    rw [vertices_trail] at hnone ⊢
    rw [live, upToReturn_of_forall hnone]
    exact (position_of_append (List.append_nil _).symm).1
  · have hoccurrences : program.occurrences = (vertices before ++ [r]) ++ vertices after := by
      rw [← vertices_trail, hsplit, vertices_append, vertices_act, List.append_assoc]
      rfl
    have hlive : program.live = vertices before ++ [r] := by
      rw [live, hoccurrences, List.append_assoc]
      exact upToReturn_append_return hbefore hr _
    obtain ⟨hearly, hlate⟩ := position_of_append hoccurrences
    rw [hlive, hsplit]
    refine Or.inr ⟨before, site, r, after, after.filter (isBefore (vertices before ++ [r]).length),
      rfl, ?_, hr, ?_⟩
    · have hcommon : (before ++ [Step.act site r]).filter
          (isBefore (vertices before ++ [r]).length) = before ++ [.act site r] := by
        refine filter_isBefore_eq_self ?_
        rw [vertices_append]
        exact hearly
      rw [List.append_cons before _ after, List.filter_append, hcommon, List.append_assoc]
      rfl
    · rw [vertices_filter_isBefore, List.filter_eq_nil_iff]
      intro v hv
      simpa using hlate v hv

/-! ## What the removal preserves -/

/-- The actions that stay are the live ones. -/
theorem occurrences_withoutDeadCode (program : Stmt) :
    program.withoutDeadCode.occurrences = program.live := by
  have hsplit := program.live_append_drop.symm
  obtain ⟨hearly, hlate⟩ := position_of_append hsplit
  rw [← vertices_trail, trail_withoutDeadCode, vertices_filter_isBefore, vertices_trail]
  have hfilter : (program.live ++ program.occurrences.drop program.live.length).filter
      (fun v => decide (v.position < program.live.length)) = program.live := by
    rw [List.filter_append, List.filter_eq_self.mpr, List.filter_eq_nil_iff.mpr, List.append_nil]
    · intro v hv
      simpa using hlate v hv
    · intro v hv
      simpa using hearly v hv
  rw [← hsplit] at hfilter
  exact hfilter

theorem live_withoutDeadCode (program : Stmt) : program.withoutDeadCode.live = program.live := by
  rw [live, occurrences_withoutDeadCode]
  exact upToReturn_upToReturn program.occurrences

/-- Dead code is never run.  Both trails go alike up to the first return, and
what comes behind a return does not matter (`Step.runAll_of_return`). -/
theorem execute_withoutDeadCode (program : Stmt) (env : Environment) (scope : ScopeId) :
    program.withoutDeadCode.execute env scope = program.execute env scope := by
  rw [execute_eq_runAll, execute_eq_runAll]
  rcases program.trail_withoutDeadCode_cases with
    hsame | ⟨before, site, r, after, opened, hsplit, hkept, hr, -⟩
  · rw [hsame]
  · rw [hkept, hsplit, runAll_of_return hr before site opened after]

/-- Without dead code a resolution pass stops early: it records the same reads, and then no
others. -/
theorem unresolvedReads_withoutDeadCode (program : Stmt) (decls : Declarations) (scope : ScopeId) :
    (program.withoutDeadCode.resolve scope (.start decls)).2.unresolvedReads <+:
      (program.resolve scope (.start decls)).2.unresolvedReads := by
  rw [resolve_eq_resolveAll, resolve_eq_resolveAll]
  rcases program.trail_withoutDeadCode_cases with
    hsame | ⟨before, site, r, after, opened, hsplit, hkept, -, hopened⟩
  · exact ⟨[], by rw [hsame, List.append_nil]⟩
  · rw [hkept, hsplit, List.append_cons before _ opened, List.append_cons before _ after,
      Step.resolveAll_append _ opened, Step.resolveAll_append _ after]
    obtain ⟨missed, hreads, -, -⟩ := Step.resolveAll_spec after
      (Step.resolveAll (Site.scope scope decls.size) (before ++ [.act site r]) (.start decls)).2
    obtain ⟨none, hreads', -, hnone⟩ := Step.resolveAll_spec opened
      (Step.resolveAll (Site.scope scope decls.size) (before ++ [.act site r]) (.start decls)).2
    have hempty : none = [] := by
      refine List.eq_nil_iff_forall_not_mem.mpr fun read hread => ?_
      obtain ⟨v, hv, -⟩ := hnone read hread
      rw [hopened] at hv
      cases hv
    rw [hreads, hreads', hempty, List.append_nil]
    exact List.prefix_append _ missed

/-- **Removing dead code is safe.**  Every evaluation has the same outcome and leaves the same
scopes; a resolution pass records a prefix of the unresolved names; and the flow graph keeps its
start and its edges, in order, and has no unreachable vertex left. -/
theorem withoutDeadCode_safe (program : Stmt) :
    (∀ env scope, program.withoutDeadCode.evaluate env scope = program.evaluate env scope) ∧
      (∀ decls scope, (program.withoutDeadCode.resolve scope (.start decls)).2.unresolved <+:
        (program.resolve scope (.start decls)).2.unresolved) ∧
      program.withoutDeadCode.flow.reachability.unreachable = [] ∧
      program.withoutDeadCode.flow.start = program.flow.start ∧
      program.withoutDeadCode.flow.edges = program.flow.edges ∧
      program.withoutDeadCode.flow.graph.edgeCount = program.flow.graph.edgeCount := by
  refine ⟨fun env scope => ?_, fun decls scope => ?_, ?_, ?_, ?_, ?_⟩
  · rw [evaluate, execute_withoutDeadCode]
    rfl
  · exact (program.unresolvedReads_withoutDeadCode decls scope).map _
  · rw [unreachable_flow, live_withoutDeadCode, occurrences_withoutDeadCode, List.drop_length]
  · rw [start_flow, start_flow, occurrences_withoutDeadCode, live]
    cases program.occurrences with
    | nil => rfl
    | cons v rest =>
        rw [upToReturn]
        split <;> rfl
  · rw [edges_flow, edges_flow, live_withoutDeadCode]
  · rw [program.withoutDeadCode.isPath_flow.edgeCount, program.isPath_flow.edgeCount,
      live_withoutDeadCode]

/-- Behind the return the assignment goes, and the block around it stays. -/
example :
    (Stmt.block [.ret (.literal (.int 1)), .block [.assign "x" (.variable "y")]]).withoutDeadCode =
      .block [.ret (.literal (.int 1)), .block []] := by
  rfl

end Stmt

end StraightLine
