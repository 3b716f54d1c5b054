import Rulewright.Rule.Graph
import Rulewright.Proofs.Toml.Places

/-!
Documents of rule graphs, as they are written and read: a header and a table for each rule, for each of its filters and for each edge.
A document made of tables that can be read is read as these tables.
-/

open List

namespace Rulewright.Toml

variable {fuel : Nat} {table : List Entry}

open Text Entries Entry
open Scan (special)

def ruleHeader : List Char := heading ['r', 'u', 'l', 'e', 's']

def filterHeader : List Char := heading ['r', 'u', 'l', 'e', 's', '.', 'f', 'i', 'l', 't', 'e', 'r', 's']

def edgeHeader : List Char := heading ['e', 'd', 'g', 'e', 's']

theorem heading_rule : Heading ['r', 'u', 'l', 'e', 's'] ["rules"] := ⟨by simp, by simp [special], fun _ => rfl⟩

theorem heading_filter : Heading ['r', 'u', 'l', 'e', 's', '.', 'f', 'i', 'l', 't', 'e', 'r', 's'] ["rules", "filters"] :=
  ⟨by simp, by simp [special], fun _ => rfl⟩

theorem heading_edge : Heading ['e', 'd', 'g', 'e', 's'] ["edges"] := ⟨by simp, by simp [special], fun _ => rfl⟩

structure RuleTable where
  front : List Entry
  filters : List (List Entry)

structure Table (fuel : Nat) (table : List Entry) : Prop where
  each : ∀ e ∈ table, e.Reads fuel
  distinct : (table.map name).Nodup

theorem Table.fills (reads : Table fuel table) (names : List String) :
    Fills (fuel + 2) names (chunkLines (table.map Entry.chunk)) (fields? table) := by
  intro place _
  have lines : chunkLines (table.map Entry.chunk) = table.flatMap Entry.lines := by
    rw [chunkLines, flatMap_map]
    rfl
  rw [lines]
  exact ⟨place.way, readAll_table place.focus reads.each reads.distinct fun _ _ => rfl⟩

theorem Table.scans (reads : Table fuel table) : Scans (table.map Entry.chunk) := by
  intro chunk mem
  obtain ⟨e, present, rfl⟩ := mem_map.mp mem
  obtain ⟨bare, scans, -⟩ := reads.each e present
  exact Scan.lines_entry bare.filled bare.name scans

namespace RuleTable

structure Reads (fuel : Nat) (s : RuleTable) : Prop where
  front : Table fuel s.front
  plain : ∀ e ∈ s.front, e.name ≠ "filters"
  filters : ∀ filter ∈ s.filters, Table fuel filter

def body (s : RuleTable) : List (List Char × List Char) :=
  s.front.map Entry.chunk ++ s.filters.flatMap fun filter => (filterHeader, filterHeader) :: filter.map Entry.chunk

def chunks (s : RuleTable) : List (List Char × List Char) := (ruleHeader, ruleHeader) :: s.body

def table? (table : List Entry) : Option Value := (fields? table).map .dict

def entries? (s : RuleTable) : Option Entries :=
  (fields? s.front).bind fun entries => (s.filters.mapM table?).map fun filters => entries ++ arrayEntry "filters" filters

def value? (s : RuleTable) : Option Value := s.entries?.map .dict

theorem fills {s : RuleTable} (reads : s.Reads fuel) : Fills (fuel + 2) ["rules"] (chunkLines s.body) s.entries? := by
  rw [body, chunkLines_append]
  refine (reads.front.fills _).then fun entries read => ?_
  have absent : has "filters" entries = false := by
    rw [has_eq_false_iff]
    intro entry mem
    have named : entry.1 ∈ s.front.map name := fields?_names read ▸ mem_map_of_mem mem
    obtain ⟨e, mem, same⟩ := mem_map.mp named
    exact same ▸ reads.plain e mem
  rw [flatMap_def, ← Text.intercalate_nil]
  exact extends_array heading_filter (by decide) absent (fun _ => rfl) fun filter mem => (reads.filters filter mem).fills _

theorem scans {s : RuleTable} (reads : s.Reads fuel) : Scans s.chunks := by
  refine heading_rule.scans (reads.front.scans.append fun chunk mem => ?_)
  obtain ⟨filter, inside, mem⟩ := mem_flatMap.mp mem
  exact heading_filter.scans (reads.filters filter inside).scans chunk mem

end RuleTable

structure Sheet where
  rules : List RuleTable
  edges : List (List Entry)

namespace Sheet

variable {s : Sheet}

structure Reads (fuel : Nat) (s : Sheet) : Prop where
  filled : s.rules ≠ []
  rules : ∀ rule ∈ s.rules, rule.Reads fuel
  edges : ∀ edge ∈ s.edges, Table fuel edge

def edgeChunks (edge : List Entry) : List (List Char × List Char) := (edgeHeader, edgeHeader) :: edge.map Entry.chunk

def chunks (s : Sheet) : List (List Char × List Char) :=
  [([], [])].intercalate (s.rules.map RuleTable.chunks) ++
    if s.edges.isEmpty then [([], []), ([], []), ([], [])] else [([], [])].intercalate (s.edges.map edgeChunks)

def text (s : Sheet) : List Char := ['\n'].intercalate (s.chunks.map Prod.fst)

def entries? (s : Sheet) : Option Entries :=
  ((s.rules.mapM RuleTable.value?).map (arrayEntry "rules")).bind fun rules => (s.edges.mapM RuleTable.table?).map fun edges => rules ++ arrayEntry "edges" edges

def root? (s : Sheet) : Option Value := s.entries?.map .dict

theorem reaches (reads : s.Reads fuel) : Reaches (fuel + 2) [] (fun place => ⟨place.root [], [], []⟩) (chunkLines s.chunks) s.entries? := by
  have rules : Extends (fuel + 2) [] [] (chunkLines ([([], [])].intercalate (s.rules.map RuleTable.chunks)))
      ((s.rules.mapM RuleTable.value?).map (arrayEntry "rules")) :=
    extends_array heading_rule (by decide) rfl (readAll_blank _) fun rule mem => RuleTable.fills (reads.rules rule mem)
  rw [chunks, chunkLines_append]
  refine (rules []).then fun base mem => ?_
  by_cases none : s.edges = []
  · intro way place named
    rw [none]
    exact ⟨way, by simp [arrayEntry]; rfl⟩
  · obtain ⟨all, -, rfl⟩ := Option.map_eq_some_iff.mp mem
    have absent : has "edges" (arrayEntry "rules" all) = false := by cases all <;> rfl
    rw [if_neg (by simpa using none)]
    exact extends_array heading_edge (by decide) absent (readAll_blank _) fun edge mem => (reads.edges edge mem).fills _

theorem readAll_lines (reads : s.Reads fuel) : (readAll (fuel + 2) {} (chunkLines s.chunks)).map (·.document.root) = s.root? := by
  obtain ⟨way, read⟩ := reaches reads Place.start rfl
  refine (congrArg _ read).trans ?_
  rw [root?, Option.map_map]
  rfl

theorem scans (reads : s.Reads fuel) : Scans s.chunks := by
  refine (Scans.intercalate (scans_blank 1) fun part mem => ?_).append ?_
  · obtain ⟨rule, inside, rfl⟩ := mem_map.mp mem
    exact RuleTable.scans (reads.rules rule inside)
  · split
    · exact scans_blank 3
    · refine .intercalate (scans_blank 1) fun part mem => ?_
      obtain ⟨edge, inside, rfl⟩ := mem_map.mp mem
      exact heading_edge.scans (reads.edges edge inside).scans

theorem readChars_text (reads : s.Reads (2 * s.text.length + 6)) : (readChars s.text).toOption = s.root? := by
  have filled : s.chunks ≠ [] := by
    obtain ⟨rule, rules, start⟩ := exists_cons_of_ne_nil reads.filled
    cases rules <;> simp [chunks, start, intercalate_cons_cons, RuleTable.chunks]
  rw [← readAll_lines reads]
  exact readChars_chunks filled (scans reads)

end Sheet

end Rulewright.Toml
