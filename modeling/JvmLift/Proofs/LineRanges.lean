import JvmLift.LineTable
import JvmLift.Proofs.Sorting
import Mathlib.Data.List.Sort

namespace JvmLift

theorem mem_sortLines {e : LineEntry} {entries : List LineEntry} :
    e ∈ sortLines entries ↔ e ∈ entries :=
  (sorted_perm _ entries).mem_iff

theorem pairwise_sortLines (entries : List LineEntry) :
    (sortLines entries).Pairwise fun a b => a.start ≤ b.start := by
  have hsorted := pairwise_sorted (fun a b : LineEntry => decide (a.start ≤ b.start))
    (fun a b c hab hbc => by
      rw [decide_eq_true_eq] at hab hbc ⊢
      exact UInt16.le_trans hab hbc)
    (fun a b => by
      rw [decide_eq_true_eq, decide_eq_true_eq]
      exact UInt16.le_total a.start b.start) entries
  exact hsorted.imp of_decide_eq_true

namespace LineTable

-- The line at a position is that of an entry behind which no other one starts up to there.
theorem exists_lineAt?_eq {entries : List LineEntry} {pc : Nat}
    (h : ∃ e ∈ entries, e.start.toNat ≤ pc) :
    ∃ d ∈ entries, d.start.toNat ≤ pc ∧ (ofEntries entries).lineAt? pc = some d.line ∧
      ∀ e ∈ entries, e.start.toNat ≤ pc → e.start.toNat ≤ d.start.toNat := by
  obtain ⟨e, he, hle⟩ := h
  let before := (sortLines entries).filter fun e => e.start.toNat ≤ pc
  have hmem (x : LineEntry) : x ∈ before ↔ x ∈ entries ∧ x.start.toNat ≤ pc := by
    simp only [before, List.mem_filter, mem_sortLines, decide_eq_true_eq]
  have hne : before ≠ [] := List.ne_nil_of_mem ((hmem e).2 ⟨he, hle⟩)
  obtain ⟨hd, hdle⟩ := (hmem (before.getLast hne)).1 (List.getLast_mem hne)
  refine ⟨before.getLast hne, hd, hdle, ?_, fun x hx hxle => ?_⟩
  · show before.getLast?.map (·.line) = _
    rw [List.getLast?_eq_some_getLast hne, Option.map_some]
  · have hordered : before.Pairwise fun a b => a.start ≤ b.start :=
      (pairwise_sortLines entries).filter _
    rw [← List.dropLast_append_getLast hne, List.pairwise_append] at hordered
    have hx' : x ∈ before.dropLast ++ [before.getLast hne] := by
      rw [List.dropLast_append_getLast hne]
      exact (hmem x).2 ⟨hx, hxle⟩
    rcases List.mem_append.1 hx' with hfront | hlast
    · exact UInt16.le_iff_toNat_le.1 (hordered.2.2 x hfront _ (List.mem_singleton_self _))
    · rw [List.mem_singleton.1 hlast]

end LineTable

namespace Method

variable {m : Method} {line : UInt16} {start stop : Nat}

-- A line has a range if the table has an entry for it.
theorem exists_codeRange?_iff :
    (∃ start stop, m.codeRange? line = some (start, stop)) ↔ m.hasLine line := by
  let starts := (m.lines.filter fun e => e.line = line).map fun e => e.start.toNat
  have hline : m.hasLine line ↔ starts ≠ [] := by
    simp only [hasLine, List.any_eq_true, decide_eq_true_eq, starts, ne_eq, List.map_eq_nil_iff,
      List.filter_eq_nil_iff, not_forall, not_not, exists_prop]
  rw [hline]
  constructor
  · rintro ⟨start, stop, h⟩
    obtain ⟨first, hfirst, -⟩ := Option.bind_eq_some_iff.1 h
    have hmem : first ∈ starts := List.min?_mem hfirst
    exact List.ne_nil_of_mem hmem
  · intro hne
    obtain ⟨first, hfirst⟩ := Option.isSome_iff_exists.1 (List.isSome_min?_of_ne_nil hne)
    exact ⟨first, _, Option.bind_eq_some_iff.2 ⟨first, hfirst, rfl⟩⟩

-- A range begins at an entry of its line, and no entry of another line begins in it behind that.
theorem of_codeRange? (h : m.codeRange? line = some (start, stop)) :
    (∃ e ∈ m.lines, e.line = line ∧ e.start.toNat = start) ∧
      ∀ e ∈ m.lines, e.line ≠ line → start < e.start.toNat → stop ≤ e.start.toNat := by
  obtain ⟨first, hfirst, h⟩ := Option.bind_eq_some_iff.1 h
  obtain ⟨rfl, rfl⟩ := Prod.mk.inj (Option.some.inj h)
  constructor
  · obtain ⟨e, he, hstart⟩ := List.mem_map.1 (List.min?_mem hfirst)
    obtain ⟨hmem, hline⟩ := List.mem_filter.1 he
    exact ⟨e, hmem, of_decide_eq_true hline, hstart⟩
  · intro e he hne hlt
    let others := (m.lines.filter fun e => e.line ≠ line && first < e.start.toNat).map
      fun e => e.start.toNat
    have hmem : e.start.toNat ∈ others :=
      List.mem_map_of_mem (List.mem_filter.2 ⟨he, by simp [hne, hlt]⟩)
    have hsome := List.isSome_min?_of_mem hmem
    obtain ⟨low, hlow⟩ := Option.isSome_iff_exists.1 hsome
    have hle := (List.min?_eq_some_iff.1 hlow).2 _ hmem
    show others.min?.getD m.code.length ≤ e.start.toNat
    rwa [hlow]

-- The code in the range of a line is stamped with that line.
theorem lineAt?_of_codeRange?
    (hlines : ∀ d ∈ m.lines, ∀ e ∈ m.lines, d.start = e.start → d.line = e.line)
    (h : m.codeRange? line = some (start, stop)) {pc : Nat} (hstart : start ≤ pc)
    (hstop : pc < stop) : (LineTable.ofEntries m.lines).lineAt? pc = some line := by
  obtain ⟨⟨e, he, rfl, rfl⟩, hothers⟩ := of_codeRange? h
  obtain ⟨d, hd, hdle, hat, hlatest⟩ := LineTable.exists_lineAt?_eq ⟨e, he, hstart⟩
  have hle := hlatest e he hstart
  rw [hat]
  by_cases hne : d.line = e.line
  · rw [hne]
  · -- an entry of another line would begin behind the range's start, and so end the range
    have hstarts : d.start ≠ e.start := fun hs => hne (hlines d hd e he hs)
    have hlt : e.start.toNat < d.start.toNat :=
      Nat.lt_of_le_of_ne hle fun hs => hstarts (UInt16.toNat_inj.1 hs.symm)
    have hend := hothers d hd hne hlt
    omega

-- If no two lines share a start, then the code that a line has for its own is the code that is
-- stamped with it, however often a line occurs and in whatever order. So no two lines have code in
-- common.
theorem lineRanges_agree (m : Method)
    (hlines : ∀ d ∈ m.lines, ∀ e ∈ m.lines, d.start = e.start → d.line = e.line) :
    (∀ line, (∃ start stop, m.codeRange? line = some (start, stop)) ↔ m.hasLine line) ∧
      (∀ line start stop, m.codeRange? line = some (start, stop) → ∀ pc, start ≤ pc → pc < stop →
        (LineTable.ofEntries m.lines).lineAt? pc = some line) ∧
      ∀ line line' start stop start' stop', line ≠ line' →
        m.codeRange? line = some (start, stop) → m.codeRange? line' = some (start', stop') →
        ∀ pc, ¬((start ≤ pc ∧ pc < stop) ∧ start' ≤ pc ∧ pc < stop') := by
  refine ⟨fun line => exists_codeRange?_iff, ?_, ?_⟩
  · intro line start stop h pc hstart hstop
    exact lineAt?_of_codeRange? hlines h hstart hstop
  · rintro line line' start stop start' stop' hne h h' pc ⟨⟨hstart, hstop⟩, hstart', hstop'⟩
    have hat := lineAt?_of_codeRange? hlines h hstart hstop
    have hat' := lineAt?_of_codeRange? hlines h' hstart' hstop'
    exact hne (Option.some.inj (hat.symm.trans hat'))

-- A loop: its head is compiled in front of its body and behind it, and listed last.
def loop : Method :=
  { className := "A", name := "m", descriptor := "()V", signature := ⟨[], .void⟩
    code := List.replicate 12 0
    lines := [⟨9, 4⟩, ⟨3, 2⟩, ⟨6, 1⟩, ⟨4, 2⟩, ⟨0, 1⟩] }

theorem lineRanges_agree_loop :
    (∀ d ∈ loop.lines, ∀ e ∈ loop.lines, d.start = e.start → d.line = e.line) ∧
      loop.codeRange? 1 = some (0, 3) ∧ loop.codeRange? 2 = some (3, 6) ∧
      (LineTable.ofEntries loop.lines).lineAt? 5 = some 2 ∧
      ∀ pc, ¬((0 ≤ pc ∧ pc < 3) ∧ 3 ≤ pc ∧ pc < 6) := by
  have hlines : ∀ d ∈ loop.lines, ∀ e ∈ loop.lines, d.start = e.start → d.line = e.line := by
    decide
  have hfirst : loop.codeRange? 1 = some (0, 3) := by decide
  have hsecond : loop.codeRange? 2 = some (3, 6) := by decide
  obtain ⟨-, hstamps, hapart⟩ := lineRanges_agree loop hlines
  exact ⟨hlines, hfirst, hsecond, hstamps 2 3 6 hsecond 5 (by decide) (by decide),
    hapart 1 2 0 3 3 6 (by decide) hfirst hsecond⟩

end Method

end JvmLift
