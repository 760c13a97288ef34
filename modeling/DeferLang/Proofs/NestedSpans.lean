import DeferLang.Proofs.ProgramRounds

/-!
# The spans of a parsed program nest

A parser leaves behind a row of outlines: those of what it has read and not yet made
part of something larger.  Making a node gathers the end of the row under one outline;
what is read and not kept, or dropped after an error, leaves a gap.  So the items of a
program lie on its text one behind the other, with their parts inside them.
-/

namespace DeferLang

namespace Parser

open Outline (Row InRow)

variable {text : List Char} {c : Cursor}

theorem merged_items {items : List Item} {start stop : Nat}
    (h : InRow text (items.map Item.outline) start stop) :
    Outline.merged ((items.filterMap Item.classDef?).map ClassDef.outline)
      ((items.filterMap Item.function?).map Function.outline) = items.map Item.outline := by
  refine h.merged_filterMap fun i => ?_
  cases i with
  | ofFunction f => exact .inr ⟨f, rfl, rfl, rfl⟩
  | ofClass d => exact .inl ⟨d, rfl, rfl, rfl⟩

/-- The items of a program lie on the text one behind the other, and its errors point into it. -/
theorem row_programFrom (rounds : Nat) (hc : c.OnText text) :
    (programFrom rounds c).2.OnText text ∧
      Row text ((programFrom rounds c).1.map Item.outline) c.edge.stop
        (programFrom rounds c).2.edge := by
  obtain ⟨d, ks, hat, hends, -⟩ := programFrom_at rounds c
  obtain ⟨hd, -, hrow⟩ := hat.text text hc
  rcases hends with rfl | hstops
  · exact ⟨hd, hrow⟩
  · generalize (programFrom rounds c).2 = final at hstops ⊢
    cases hstops with
    | atEnd => exact ⟨hd, hrow⟩
    | tooDeep hfail _ _ =>
      obtain ⟨hd', hedge, hpoints⟩ := hfail.text text hd
      exact ⟨hd'.report hpoints, hrow.mono hedge⟩

end Parser

/-- The parts of a parsed program lie on its text one behind the other, and what is wrong with it
is found in the text. -/
theorem inRow_parseProgram (text : List Char) :
    Outline.InRow text (parseProgram (tokens text)).1.outline.parts 0 (byteLength text) ∧
      ∀ e ∈ (parseProgram (tokens text)).2, e.span.Points text := by
  have hstart : Cursor.OnText text { rest := tokens text } :=
    ⟨⟨lined_tokens text, nofun⟩, nofun⟩
  obtain ⟨hend, hrow⟩ := Parser.row_programFrom (tokens text).length hstart
  refine ⟨?_, hend.errors⟩
  have hitems := hrow.inRow.mono (Nat.le_refl 0) hend.edge_le
  rw [← Parser.merged_items hitems] at hitems
  exact hitems

theorem span_parseProgram (text : List Char) :
    (parseProgram (tokens text)).1.span = ⟨0, byteLength text⟩ := by
  have hlast : (tokens text).getLast? = some ⟨.eof, "", ⟨byteLength text, 0⟩⟩ := by
    rw [tokens, List.getLast?_concat]
  rw [parseProgram, hlast]
  rfl

/-- The spans of a program, as it is parsed from any text, nest: each lies within the text and
within that of every node above it, and the parts of a node stand apart in the order in which they
are written, whatever sort they are of.  At the span of an identifier the text reads its name. -/
theorem parsed_spans_nest (text : List Char) :
    let root : Outline := (parseProgram (tokens text)).1.outline
    root.span = ⟨0, byteLength text⟩ ∧
      ∀ n ∈ root.nodes,
        (∀ d ∈ n.nodes, n.span.offset ≤ d.span.offset ∧ d.span.stop ≤ n.span.stop) ∧
          n.parts.Pairwise (fun a b => a.span.stop ≤ b.span.offset) ∧
          ∀ name, n.word = some name →
            sliceBytes text n.span.offset n.span.stop = some name.toList := by
  intro root
  have hspan : root.span = ⟨0, byteLength text⟩ := span_parseProgram text
  have hparts : Outline.InRow text root.parts root.span.offset root.span.stop := by
    have hrow := (inRow_parseProgram text).1
    rw [hspan]
    exact hrow.mono (Nat.le_refl _) (Nat.le_add_left _ _)
  refine ⟨hspan, fun n hn => ?_⟩
  rw [Outline.nodes_eq, List.mem_cons] at hn
  rcases hn with rfl | hn
  · refine ⟨fun d hd => ?_, hparts.pairwise, nofun⟩
    rw [Outline.nodes_eq, List.mem_cons] at hd
    rcases hd with rfl | hd
    · exact ⟨Nat.le_refl _, Nat.le_refl _⟩
    · exact (hparts.of_mem_nodesOf hd).2
  · obtain ⟨hlaid, -⟩ := hparts.of_mem_nodesOf hn
    exact ⟨fun d hd => (hlaid.of_mem_nodes hd).2, hlaid.inRow.pairwise,
      fun name hname => (hlaid.marks hname).slice⟩

end DeferLang
