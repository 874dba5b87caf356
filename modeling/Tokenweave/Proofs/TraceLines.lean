import Tokenweave.Proofs.Brackets
import Tokenweave.Match.Trace
/-!
# The lines of a trace

A trace is written by a machine with a stack: an entry pushes the node's line, or nothing for a
node without a line, and remembers where the line is; the end of the node pops the stack and adds
the result to that line. Read against the visits of a match (`Visit`), the machine writes one
row per visit in the order the visits were entered, with a backtrack row between two
alternatives of a choice (`Visit.rows`), and each row is a line or nothing, depending only on
the verbosity (`TraceRow.line?`). A row remembers how many visits are open around it, and how
many of those are of named nodes: the indentation of the verbose and of the normal trace.

Main statements:

* `matchAt_trace_bracketed`: the events of a finished traced match are well bracketed, every
  entry paid for with fuel, and the tracer ends with no open entry, each line of a node carrying
  exactly one result;
* `matchAt_trace_levels`: the three verbosities are three readings of one list of rows. The very
  verbose trace is the verbose one with the input ahead inserted after the offset of every node
  line; the normal trace keeps the node lines of named nodes only, indented by the named nodes
  open around them, without the matched text.

The stack machine is related to the rows by one induction over visits (`foldl_step_events`): a
visit's events leave the stack as they found it and append the visit's rows, its own line
patched with its result once its inner rows have been written.
-/

set_option autoImplicit false

namespace Tokenweave

/-- A line of a trace before it is written, in the order lines are written. -/
inductive TraceRow where
  /-- The visit of `node` at `pos`, inside `depth` open visits of which `named` are visits of
  named nodes, ended at `stop` (`none` when it failed). -/
  | visit (depth named : Nat) (node : NodeId) (pos : Nat) (stop : Option Nat)
  /-- The choice `node` at `pos`, inside `depth` open visits counting its own, moving on to its
  next alternative. -/
  | backtrack (depth : Nat) (node : NodeId) (pos : Nat)

namespace Visit

mutual
/-- The rows of a visit inside `depth` open visits, `named` of them of named nodes: its own row,
then the rows of the visits made inside it. -/
def rows (g : Grammar) (depth named : Nat) : Visit → List TraceRow
  | mk node pos inner stop _ =>
    .visit depth named node pos stop ::
      rowsIn g (depth + 1) (named + if (g.nameOf node).isSome then 1 else 0) node pos
        (g.isChoice node) true inner

/-- The rows of the visits made inside a visit to `node` at `pos`; inside a choice, each visit
after the first is preceded by a backtrack row. -/
def rowsIn (g : Grammar) (depth named node pos : Nat) (choice : Bool) : Bool → List Visit →
    List TraceRow
  | _, [] => []
  | first, v :: vs =>
    (if choice && !first then [.backtrack depth node pos] else []) ++ rows g depth named v ++
      rowsIn g depth named node pos choice false vs
end

end Visit

namespace TraceRow

/-- Two spaces for each of `k` levels. -/
def indent (k : Nat) : String := String.join (List.replicate k "  ")

variable (tr : Tracer)

/-- A verbose line up to the offset: indentation by the open visits, label, and offset. -/
def head : TraceRow → String
  | visit depth _ node pos _ => indent depth ++ tr.label node ++ " @" ++ toString pos
  | backtrack depth node pos =>
    indent depth ++ tr.palette.dim ++ "backtrack " ++ tr.label node ++ " @" ++ toString pos ++
      tr.palette.reset

/-- What a very verbose line has after the offset of a visit: the input ahead. -/
def ahead : TraceRow → String
  | visit _ _ _ pos _ => " " ++ tr.palette.dim ++ "»" ++ tr.palette.reset ++ tr.snippet pos (tr.ahead pos)
  | backtrack .. => ""

/-- How a visit ended: the offset it ended at, or failure. -/
def result : Option Nat → String
  | some e => " -> " ++ toString e
  | none => " " ++ tr.palette.dim ++ "failed" ++ tr.palette.reset

/-- The rest of a verbose line: the result of a visit and, when it consumed text, that text. -/
def tail : TraceRow → String
  | visit _ _ _ pos (some e) => result tr (some e) ++ if e > pos then tr.snippet pos e else ""
  | visit _ _ _ _ none => result tr none
  | backtrack .. => ""

/-- The line of a normal trace: visits of named nodes only, indented by the named visits open
around them, with their result and no text. -/
def plain : TraceRow → Option String
  | visit _ named node pos stop =>
    if (tr.grammar.nameOf node).isSome then
      some (indent named ++ tr.label node ++ " @" ++ toString pos ++ result tr stop)
    else none
  | backtrack .. => none

/-- The line written for a row at the tracer's verbosity, if any. -/
def line? (r : TraceRow) : Option String :=
  match tr.verbosity with
  | .normal => r.plain tr
  | .verbose => some (r.head tr ++ r.tail tr)
  | .veryVerbose => some (r.head tr ++ r.ahead tr ++ r.tail tr)

/-! The text of a row reads the tracer's grammar, input and palette, never its verbosity, so one
list of rows serves the three verbosities. -/

theorem line?_verbose :
    line? { tr with verbosity := .verbose } = fun r => some (r.head tr ++ r.tail tr) := by
  funext r
  cases r <;> rfl

theorem line?_veryVerbose :
    line? { tr with verbosity := .veryVerbose } =
      fun r => some (r.head tr ++ r.ahead tr ++ r.tail tr) := by
  funext r
  cases r <;> rfl

theorem line?_normal : line? { tr with verbosity := .normal } = plain tr := by
  funext r
  cases r <;> rfl

end TraceRow

namespace Tracer

variable {tr : Tracer}

/-- How many open entries have a line: the indentation, in levels, of the next line. -/
def shown (log : TraceLog) : Nat := (log.opened.filter Option.isSome).length

/-- The indentation a tracer gives a row inside `depth` open visits, `named` of them of named
nodes: every open visit has a line when verbose, only the named ones otherwise. -/
def depthOf (tr : Tracer) (depth named : Nat) : Nat :=
  if tr.verbosity.isVerbose then depth else named

/-- The line a tracer starts when it enters `id` at `pos`, indented by `k` levels. -/
def opening (tr : Tracer) (k id pos : Nat) : String :=
  match tr.verbosity with
  | .veryVerbose =>
    TraceRow.indent k ++ tr.label id ++ " @" ++ toString pos ++ " " ++ tr.palette.dim ++ "»" ++
      tr.palette.reset ++ tr.snippet pos (tr.ahead pos)
  | _ => TraceRow.indent k ++ tr.label id ++ " @" ++ toString pos

/-- What a tracer adds to the line of a visit entered at `pos` when it ends at `stop`. -/
def ending (tr : Tracer) (pos : Nat) : Option Nat → String
  | some e => " -> " ++ toString e ++ if tr.verbosity.isVerbose && e > pos then tr.snippet pos e else ""
  | none => " " ++ tr.palette.dim ++ "failed" ++ tr.palette.reset

/-! ## One event, one row -/

theorem step_enter (log : TraceLog) (id pos : Nat) :
    tr.step log (.enter id pos) =
      if tr.visible id then
        { lines := log.lines.push (tr.opening (shown log) id pos),
          opened := some log.lines.size :: log.opened }
      else { log with opened := none :: log.opened } := by
  obtain ⟨g, s, v, p⟩ := tr
  cases v <;> rfl

theorem step_closing (log : TraceLog) (id pos : Nat) (stop : Option Nat) :
    tr.step log (Visit.closing id pos stop) = close log (tr.ending pos stop) := by
  cases stop <;> rfl

theorem step_backtrack (log : TraceLog) (id pos : Nat) :
    tr.step log (.backtrack id pos) =
      if tr.verbosity.isVerbose then
        { log with lines := log.lines.push ((TraceRow.backtrack (shown log) id pos).head tr) }
      else log := rfl

theorem close_of_opened {log : TraceLog} {i : Nat} {rest : List (Option Nat)} (s : String)
    (h : log.opened = some i :: rest) :
    close log s = { lines := log.lines.modify i (· ++ s), opened := rest } := by
  simp [close, h]

theorem close_of_hidden {log : TraceLog} {rest : List (Option Nat)} (s : String)
    (h : log.opened = none :: rest) : close log s = { log with opened := rest } := by
  simp [close, h]

/-- A visit's row is the line its entry starts and its end completes, when the node has a line. -/
theorem line?_visit (depth named node pos : Nat) (stop : Option Nat) :
    (TraceRow.visit depth named node pos stop).line? tr =
      if tr.visible node then
        some (tr.opening (tr.depthOf depth named) node pos ++ tr.ending pos stop)
      else none := by
  obtain ⟨g, s, v, p⟩ := tr
  cases v <;> cases stop <;>
    simp [TraceRow.line?, TraceRow.plain, TraceRow.head, TraceRow.tail, TraceRow.ahead,
      TraceRow.result, opening, ending, visible, depthOf, Verbosity.isVerbose, String.append_assoc]

theorem line?_backtrack (depth node pos : Nat) :
    (TraceRow.backtrack depth node pos).line? tr =
      if tr.verbosity.isVerbose then some ((TraceRow.backtrack depth node pos).head tr) else none := by
  obtain ⟨g, s, v, p⟩ := tr
  cases v <;> simp [TraceRow.line?, TraceRow.plain, TraceRow.tail, TraceRow.ahead,
    Verbosity.isVerbose]

/-- Entering a visit adds a level of indentation exactly when the node gets a line. -/
theorem depthOf_enter (depth named node : Nat) :
    tr.depthOf (depth + 1) (named + if (tr.grammar.nameOf node).isSome then 1 else 0) =
      tr.depthOf depth named + if tr.visible node then 1 else 0 := by
  obtain ⟨g, s, v, p⟩ := tr
  cases v <;> simp [depthOf, visible, Verbosity.isVerbose]

end Tracer

theorem modify_length_append {α : Type} (f : α → α) (x : α) :
    ∀ l r : List α, (l ++ x :: r).modify l.length f = l ++ f x :: r
  | [], r => by simp
  | a :: l, r => by simp [modify_length_append f x l r]

/-! ## The stack machine along visits -/

/-- From any log whose open entries indent the next line by `k` levels, the events `evs` leave
the open entries as they found them and append the lines of the rows `rows`. -/
def Tracer.Writes (tr : Tracer) (k : Nat) (evs : List Event) (rows : List TraceRow) : Prop :=
  ∀ log : TraceLog, Tracer.shown log = k →
    (evs.foldl tr.step log).opened = log.opened ∧
      (evs.foldl tr.step log).lines.toList = log.lines.toList ++ rows.filterMap (TraceRow.line? tr)

namespace Tracer.Writes

variable {tr : Tracer} {k : Nat}

theorem nil : tr.Writes k [] [] := by
  intro log _
  simp

theorem append {e₁ e₂ : List Event} {r₁ r₂ : List TraceRow} (h₁ : tr.Writes k e₁ r₁)
    (h₂ : tr.Writes k e₂ r₂) : tr.Writes k (e₁ ++ e₂) (r₁ ++ r₂) := by
  intro log hk
  obtain ⟨ho₁, hl₁⟩ := h₁ log hk
  -- the first events keep the open entries, so the second start at the same indentation
  obtain ⟨ho₂, hl₂⟩ := h₂ (e₁.foldl tr.step log) (by rw [Tracer.shown, ho₁]; exact hk)
  rw [List.foldl_append]
  exact ⟨ho₂.trans ho₁, by simp [hl₂, hl₁]⟩

theorem backtrack (depth named node pos : Nat) :
    tr.Writes (tr.depthOf depth named) [.backtrack node pos] [.backtrack depth node pos] := by
  intro log hk
  simp only [List.foldl_cons, List.foldl_nil, Tracer.step_backtrack, List.filterMap_cons,
    Tracer.line?_backtrack, List.filterMap_nil]
  by_cases hv : tr.verbosity.isVerbose
  · -- verbose: every open visit has a line, so the indentation is the depth
    have hd : Tracer.shown log = depth := by simpa [Tracer.depthOf, hv] using hk
    simp [hv, hd]
  · simp [hv]

end Tracer.Writes

namespace Tracer

variable {tr : Tracer}

mutual
/-- The events of a visit write its rows: the entry starts the node's line (if it has one), the
inner visits write theirs one level deeper, and the end completes the line with the result. -/
theorem writes_events : ∀ (v : Visit) (depth named : Nat),
    tr.Writes (tr.depthOf depth named) (v.events tr.grammar) (v.rows tr.grammar depth named)
  | .mk node pos inner stop ends, depth, named => by
    intro log hk
    have hin := writes_eventsIn node pos (depth + 1)
      (named + if (tr.grammar.nameOf node).isSome then 1 else 0) (tr.grammar.isChoice node) true inner
    rw [depthOf_enter] at hin
    rw [Visit.events_mk, Visit.rows]
    simp only [List.foldl_cons, List.foldl_append, List.foldl_nil, step_enter, step_closing,
      List.filterMap_cons, line?_visit]
    by_cases hv : tr.visible node
    · -- the node's line is pushed and stays open while the inner visits write theirs
      simp only [hv, ↓reduceIte] at hin ⊢
      obtain ⟨ho, hl⟩ := hin
        ⟨log.lines.push (tr.opening (shown log) node pos), some log.lines.size :: log.opened⟩
        (by rw [← hk]; simp [shown])
      rw [close_of_opened _ ho]
      refine ⟨rfl, ?_⟩
      rw [Array.toList_modify, hl]
      simp [← Array.length_toList, modify_length_append, hk]
    · simp only [hv, Bool.false_eq_true, ↓reduceIte, Nat.add_zero] at hin ⊢
      obtain ⟨ho, hl⟩ := hin ⟨log.lines, none :: log.opened⟩
        (by simpa [shown] using hk)
      rw [close_of_hidden _ ho]
      exact ⟨rfl, hl⟩

/-- The events of the visits inside a visit write their rows, a backtrack row before every
alternative of a choice but the first. -/
theorem writes_eventsIn : ∀ (node pos depth named : Nat) (choice first : Bool) (vs : List Visit),
    tr.Writes (tr.depthOf depth named) (Visit.eventsIn tr.grammar node pos choice first vs)
      (Visit.rowsIn tr.grammar depth named node pos choice first vs)
  | _, _, _, _, _, _, [] => by
    rw [Visit.eventsIn_nil, Visit.rowsIn]
    exact Writes.nil
  | node, pos, depth, named, choice, first, v :: vs => by
    rw [Visit.eventsIn_cons, Visit.rowsIn]
    refine .append (.append ?_ (writes_events v depth named))
      (writes_eventsIn node pos depth named choice false vs)
    split
    · exact .backtrack depth named node pos
    · exact .nil
end

end Tracer

/-- A tracer that starts empty and reads the events of one visit ends with no open entry, having
written the visit's rows. -/
theorem Tracer.finish_events (tr : Tracer) (v : Visit) :
    ((v.events tr.grammar).foldl tr.step {}).opened = [] ∧
      tr.lines (v.events tr.grammar) = (v.rows tr.grammar 0 0).filterMap (TraceRow.line? tr) := by
  have hk : Tracer.shown {} = tr.depthOf 0 0 := by simp [Tracer.shown, Tracer.depthOf]
  simpa [Tracer.lines] using Tracer.writes_events v 0 0 {} hk

/-! ## Traces of a match -/

section Traces

variable {g : Grammar} {n : NodeId} {s : String} {p : Nat} {limits : Limits} {o : Outcome}

/-- The events of a finished traced match are well bracketed: from a character boundary they are
the events of one visit to the root, entered where the match starts and ended where it ends, and
a tracer reading them closes every line it opens, each line getting its one result; inside a
character nothing is entered. Entries never outnumber the fuel. -/
theorem matchAt_trace_bracketed (h : (matchAt g n s p limits true).result = .ok o) :
    (matchAt g n s p limits true).events.countP Event.isEnter ≤ limits.fuel ∧
      ((Text.isBoundary s p = false ∧ (matchAt g n s p limits true).events = []) ∨
        (Text.isBoundary s p = true ∧ ∃ v : Visit,
          (matchAt g n s p limits true).events = v.events g ∧
          v.node = n ∧ v.pos = p ∧ v.stop = o.parsed.map Parsed.stop ∧
          ∀ tr : Tracer, tr.grammar = g →
            ((matchAt g n s p limits true).events.foldl tr.step {}).opened = [] ∧
            tr.lines (matchAt g n s p limits true).events =
              (v.rows g 0 0).filterMap (TraceRow.line? tr))) := by
  obtain ⟨hfuel, hinside | ⟨hb, v, hev, hn, hp, hstop⟩⟩ := matchAt_events_visit h
  · exact ⟨hfuel, .inl hinside⟩
  · refine ⟨hfuel, .inr ⟨hb, v, hev, hn, hp, hstop, ?_⟩⟩
    rintro tr rfl
    rw [hev]
    exact tr.finish_events v

/-- The statement on `42`. -/
theorem digitPair_trace_bracketed :
    (matchAt digitPair 0 "42" 0 {} true).result =
        .ok ⟨some (.mk 4 none 0 2 [.mk 2 none 0 1 [], .mk 2 none 1 2 []]), 1⟩ ∧
      (matchAt digitPair 0 "42" 0 {} true).events.countP Event.isEnter ≤ (Limits.fuel {}) ∧
      ((Text.isBoundary "42" 0 = false ∧ (matchAt digitPair 0 "42" 0 {} true).events = []) ∨
        (Text.isBoundary "42" 0 = true ∧ ∃ v : Visit,
          (matchAt digitPair 0 "42" 0 {} true).events = v.events digitPair ∧
          v.node = 0 ∧ v.pos = 0 ∧ v.stop = some 2 ∧
          ∀ tr : Tracer, tr.grammar = digitPair →
            ((matchAt digitPair 0 "42" 0 {} true).events.foldl tr.step {}).opened = [] ∧
            tr.lines (matchAt digitPair 0 "42" 0 {} true).events =
              (v.rows digitPair 0 0).filterMap (TraceRow.line? tr))) :=
  ⟨rfl, @matchAt_trace_bracketed digitPair 0 "42" 0 {} _ rfl⟩

/-- From inside a character the match answers at once: no node is entered, so its events are not
the events of any visit, though it succeeds without fuel. -/
theorem matchAt_inside_char_no_visit :
    Text.isBoundary "é" 1 = false ∧
      (matchAt digitPair 0 "é" 1 ⟨0, 256⟩ true).result = .ok ⟨none, 1⟩ ∧
      (matchAt digitPair 0 "é" 1 ⟨0, 256⟩ true).events = [] ∧
      ∀ v : Visit, (matchAt digitPair 0 "é" 1 ⟨0, 256⟩ true).events ≠ v.events digitPair := by
  refine ⟨by decide, rfl, rfl, ?_⟩
  rintro ⟨node, pos, inner, stop, ends⟩
  simp [Visit.events_mk, matchAt, show Text.isBoundary "é" 1 = false by decide]

/-- The three verbosities are three readings of one list of rows, whatever the palette: a
verbose line is a row's head and tail, a very verbose line has the input ahead between the two
(nothing for a backtrack row), and a normal trace keeps the rows of named nodes, indented by the
named visits around them and without the matched text. -/
theorem matchAt_trace_levels (h : (matchAt g n s p limits true).result = .ok o) :
    ∃ rows : List TraceRow,
      (((matchAt g n s p limits true).events = [] ∧ rows = []) ∨
        ∃ v : Visit, (matchAt g n s p limits true).events = v.events g ∧ rows = v.rows g 0 0) ∧
      ∀ tr : Tracer, tr.grammar = g → tr.source = s →
        { tr with verbosity := .verbose }.lines (matchAt g n s p limits true).events =
            rows.map (fun r => r.head tr ++ r.tail tr) ∧
          { tr with verbosity := .veryVerbose }.lines (matchAt g n s p limits true).events =
            rows.map (fun r => r.head tr ++ r.ahead tr ++ r.tail tr) ∧
          { tr with verbosity := .normal }.lines (matchAt g n s p limits true).events =
            rows.filterMap (TraceRow.plain tr) := by
  obtain ⟨-, ⟨-, hev⟩ | ⟨-, v, hev, -⟩⟩ := matchAt_events_visit h
  · refine ⟨[], .inl ⟨hev, rfl⟩, ?_⟩
    intro tr _ _
    simp [hev, Tracer.lines]
  · refine ⟨v.rows g 0 0, .inr ⟨v, hev, rfl⟩, ?_⟩
    rintro tr rfl -
    rw [hev]
    simp only [(Tracer.finish_events _ v).2, TraceRow.line?_verbose, TraceRow.line?_veryVerbose,
      TraceRow.line?_normal, List.filterMap_eq_map', and_self]

/-- The statement on `42`. -/
theorem digitPair_trace_levels :
    (matchAt digitPair 0 "42" 0 {} true).result =
        .ok ⟨some (.mk 4 none 0 2 [.mk 2 none 0 1 [], .mk 2 none 1 2 []]), 1⟩ ∧
      ∃ rows : List TraceRow,
        (((matchAt digitPair 0 "42" 0 {} true).events = [] ∧ rows = []) ∨
          ∃ v : Visit, (matchAt digitPair 0 "42" 0 {} true).events = v.events digitPair ∧
            rows = v.rows digitPair 0 0) ∧
        ∀ tr : Tracer, tr.grammar = digitPair → tr.source = "42" →
          { tr with verbosity := .verbose }.lines (matchAt digitPair 0 "42" 0 {} true).events =
              rows.map (fun r => r.head tr ++ r.tail tr) ∧
            { tr with verbosity := .veryVerbose }.lines (matchAt digitPair 0 "42" 0 {} true).events =
              rows.map (fun r => r.head tr ++ r.ahead tr ++ r.tail tr) ∧
            { tr with verbosity := .normal }.lines (matchAt digitPair 0 "42" 0 {} true).events =
              rows.filterMap (TraceRow.plain tr) :=
  ⟨rfl, @matchAt_trace_levels digitPair 0 "42" 0 {} _ rfl⟩

/-- The verbose trace on `42`: the first alternative fails at its second character, the choice
backtracks, and the second alternative matches both digits. -/
example :
    Tracer.lines ⟨digitPair, "42", .verbose, .plain⟩ (matchAt digitPair 0 "42" 0 {} true).events =
      ["Choice @0 -> 2 \"42\"", "  Sequence @0 failed", "    CharRange @0 -> 1 \"4\"",
        "    CharRange @1 failed", "  backtrack Choice @0", "  Sequence @0 -> 2 \"42\"",
        "    CharRange @0 -> 1 \"4\"", "    CharRange @1 -> 2 \"2\""] := by
  rfl

end Traces

end Tokenweave
