import Scorecard.Number.Binary
import Scorecard.Proofs.Consolidation.Stages

/-! What a report says of the formulas: in every bucket, the value of a formula is what its
program comes to when references stand for the values of the report itself. -/
namespace Scorecard.Consolidation

open Calendar (Timestamp)
open Formula (Context Program Registry referenceName)
open Kpi (Definition)

variable {ν : Type}

namespace Report

/-- The value of a series in one bucket. -/
def valueAt? (report : Report ν) (name : String) (index : Nat) : Option ν := do
  let buckets ← report.series.lookup name
  (← buckets[index]?).value

theorem valueAt?_of_lookup {report : Report ν} {name : String} {buckets : List (Bucket ν)}
    {index : Nat} {bucket : Bucket ν} (hl : report.series.lookup name = some buckets)
    (hb : buckets[index]? = some bucket) : report.valueAt? name index = bucket.value := by
  simp [valueAt?, hl, hb]

/-- What references stand for in one bucket of a report. -/
def context (report : Report ν) (index : Nat) : Context ν := fun key =>
  report.valueAt? (referenceName key) index

end Report

/-! ### From the table to the report -/

/-- Values put on the spans of their buckets. -/
def bucketsOn (spans : List (Timestamp × Timestamp)) (values : Array (Option ν)) :
    List (Bucket ν) :=
  (spans.zip values.toList).map fun ((start, last), value) => ⟨start, last, value⟩

/-- The first and the last whole second of a bucket. -/
def Bucket.span (bucket : Bucket ν) : Timestamp × Timestamp :=
  (bucket.start, bucket.last)

theorem Bucket.ext_span {a b : Bucket ν} (hspan : a.span = b.span) (hvalue : a.value = b.value) :
    a = b := by
  obtain ⟨start, last, value⟩ := a
  cases hspan
  cases hvalue
  rfl

theorem span_bucketsOn {spans : List (Timestamp × Timestamp)} {values : Array (Option ν)}
    (h : values.size = spans.length) : (bucketsOn spans values).map Bucket.span = spans := by
  calc (bucketsOn spans values).map Bucket.span
      = (spans.zip values.toList).map Prod.fst := by
        rw [bucketsOn, List.map_map]
        rfl
    _ = spans := List.map_fst_zip (Nat.le_of_eq (h.symm.trans Array.length_toList.symm))

theorem start_of_span {buckets : List (Bucket ν)} {spans : List (Timestamp × Timestamp)}
    (h : buckets.map Bucket.span = spans) : buckets.map Bucket.start = spans.map Prod.fst := by
  rw [← h, List.map_map]
  rfl

theorem value_bucketsOn {spans : List (Timestamp × Timestamp)} {values : Array (Option ν)}
    (h : values.size = spans.length) :
    (bucketsOn spans values).map Bucket.value = values.toList := by
  have hz : (spans.zip values.toList).map Prod.snd = values.toList :=
    List.map_snd_zip (Nat.le_of_eq (Array.length_toList.trans h))
  calc (bucketsOn spans values).map Bucket.value
      = (spans.zip values.toList).map Prod.snd := by
        rw [bucketsOn, List.map_map]
        rfl
    _ = values.toList := hz

theorem length_of_ends? {grid : Grid} {ends : List Timestamp} (h : grid.ends? = some ends) :
    ends.length = grid.starts.toList.length := by
  have hlength := congrArg List.length (mapM_eq_some h)
  rw [List.length_map, List.length_map] at hlength
  exact hlength.symm

theorem Table.isEmpty_eq_false {table : Table ν} {name : String} {values : Array (Option ν)}
    (h : table.get? name = some values) : table.isEmpty = false := by
  have hc : table.contains name = true := by
    rw [Std.TreeMap.contains_eq_isSome_getElem?]
    exact Option.isSome_iff_exists.mpr ⟨values, h⟩
  exact Std.TreeMap.isEmpty_eq_false_of_contains hc

theorem assemble_eq_ok {grid : Grid} {table : Table ν} {series : List (String × List (Bucket ν))}
    (h : assemble grid table = .ok series) :
    ∃ spans : List (Timestamp × Timestamp), spans.map Prod.fst = grid.starts.toList ∧
      (table.isEmpty = false → grid.ends? = some (spans.map Prod.snd)) ∧
      series = table.toList.map fun (name, values) => (name, bucketsOn spans values) := by
  unfold assemble at h
  split at h
  case isTrue hempty =>
    cases h
    -- No span is used, so any spans on the grid will do.
    refine ⟨grid.starts.toList.map fun start => (start, start), ?_, by simp [hempty], ?_⟩
    · rw [List.map_map]
      exact List.map_id _
    · rw [← Std.TreeMap.isEmpty_toList, List.isEmpty_iff] at hempty
      rw [hempty, List.map_nil]
  case isFalse =>
    split at h
    · contradiction
    case h_2 ends he =>
      cases h
      have hlength := length_of_ends? he
      refine ⟨grid.starts.toList.zip ends, List.map_fst_zip hlength.ge, fun _ => ?_, rfl⟩
      rw [he, List.map_snd_zip hlength.le]

theorem exists_assemble_iff {grid : Grid} {table : Table ν} :
    (∃ series, assemble grid table = .ok series) ↔
      (table.isEmpty = false → ∃ ends, grid.ends? = some ends) := by
  unfold assemble
  cases table.isEmpty with
  | true => simp
  | false => cases grid.ends? <;> simp

theorem assemble_eq_error {grid : Grid} {table : Table ν} {e : Error}
    (h : assemble grid table = .error e) : e = .dateOutOfRange := by
  unfold assemble at h
  split at h
  · contradiction
  · split at h
    · cases h
      rfl
    · contradiction

theorem lookup_eq_some_of_mem {α : Type} {entries : List (String × α)} {key : String} {value : α}
    (hn : (entries.map Prod.fst).Nodup) (h : (key, value) ∈ entries) :
    entries.lookup key = some value := by
  obtain ⟨before, after, rfl⟩ := List.append_of_mem h
  refine List.lookup_eq_some_iff.mpr ⟨before, after, rfl, ?_⟩
  intro entry he
  rw [List.map_append, List.map_cons] at hn
  have hne := (List.nodup_append.mp hn).2.2 entry.1 (List.mem_map_of_mem he) key List.mem_cons_self
  exact bne_iff_ne.mpr hne.symm

theorem mem_of_lookup_eq_some {α : Type} {entries : List (String × α)} {key : String} {value : α}
    (h : entries.lookup key = some value) : (key, value) ∈ entries := by
  obtain ⟨before, after, rfl, -⟩ := List.lookup_eq_some_iff.mp h
  exact List.mem_append_right _ List.mem_cons_self

/-- A name is looked up in a listing of a table as in the table. -/
theorem lookup_map_toList {α : Type} (table : Table ν) (f : Array (Option ν) → α) (name : String) :
    (table.toList.map fun (n, values) => (n, f values)).lookup name =
      (table.get? name).map f := by
  have hkeys : ((table.toList.map fun (n, values) => (n, f values)).map Prod.fst) = table.keys := by
    rw [List.map_map, ← Std.TreeMap.map_fst_toList_eq_keys]
    rfl
  cases hs : table.get? name with
  | some values =>
    refine lookup_eq_some_of_mem (hkeys ▸ Std.TreeMap.nodup_keys) ?_
    exact List.mem_map_of_mem (Std.TreeMap.mem_toList_iff_getElem?_eq_some.mpr hs)
  | none =>
    rw [Option.map_none, List.lookup_eq_none_iff]
    intro entry he
    obtain ⟨⟨n, values⟩, hm, rfl⟩ := List.mem_map.mp he
    rw [bne_iff_ne]
    rintro rfl
    have hsome := Std.TreeMap.mem_toList_iff_getElem?_eq_some.mp hm
    have heq : none = some values := hs.symm.trans hsome
    contradiction

/-! ### The report of a run -/

namespace Stages

variable [Arithmetic ν] {r : Request ν} {report : Report ν} (s : Stages r report)

/-- The series of the report are those of the table, on the starts of the grid. -/
theorem exists_spans : ∃ spans : List (Timestamp × Timestamp),
    spans.map Prod.fst = s.grid.starts.toList ∧
      (s.table.isEmpty = false → s.grid.ends? = some (spans.map Prod.snd)) ∧
      report.series = s.table.toList.map fun (name, values) => (name, bucketsOn spans values) :=
  assemble_eq_ok s.assembles

/-- The buckets of a series have the spans of the grid and hold its values. -/
theorem bucketsOn_series {spans : List (Timestamp × Timestamp)} {name : String}
    {values : Array (Option ν)} (hspans : spans.map Prod.fst = s.grid.starts.toList)
    (h : s.table.get? name = some values) :
    (bucketsOn spans values).map Bucket.span = spans ∧
      (bucketsOn spans values).map Bucket.value = values.toList := by
  have hsize : values.size = spans.length := by
    rw [s.size_series h, Grid.size, ← Array.length_toList, ← hspans, List.length_map]
  exact ⟨span_bucketsOn hsize, value_bucketsOn hsize⟩

theorem lookup_series {name : String} {values : Array (Option ν)}
    (h : s.table.get? name = some values) : ∃ buckets, report.series.lookup name = some buckets ∧
      buckets.map Bucket.value = values.toList := by
  obtain ⟨spans, hspans, -, hseries⟩ := s.exists_spans
  refine ⟨bucketsOn spans values, ?_, (s.bucketsOn_series hspans h).2⟩
  rw [hseries, lookup_map_toList, h, Option.map_some]

/-- What is in the report is found in it under its name, and in the table. -/
theorem lookup_of_mem_series {name : String} {buckets : List (Bucket ν)}
    (h : (name, buckets) ∈ report.series) :
    report.series.lookup name = some buckets ∧ ∃ values, s.table.get? name = some values := by
  obtain ⟨spans, -, -, hseries⟩ := s.exists_spans
  rw [hseries] at h ⊢
  obtain ⟨⟨n, values⟩, hm, heq⟩ := List.mem_map.mp h
  cases heq
  have hget : s.table.get? name = some values := Std.TreeMap.mem_toList_iff_getElem?_eq_some.mp hm
  refine ⟨?_, values, hget⟩
  rw [lookup_map_toList, hget, Option.map_some]

/-- All series have the same spans, from the starts of the grid to its ends. -/
theorem exists_spans_series : ∃ spans : List (Timestamp × Timestamp),
    spans.map Prod.fst = s.grid.starts.toList ∧ ∀ name buckets, (name, buckets) ∈ report.series →
      buckets.map Bucket.span = spans ∧ s.grid.ends? = some (spans.map Prod.snd) := by
  obtain ⟨spans, hspans, hends, hseries⟩ := s.exists_spans
  refine ⟨spans, hspans, fun name buckets h => ?_⟩
  obtain ⟨hl, values, hvalues⟩ := s.lookup_of_mem_series h
  rw [hseries, lookup_map_toList, hvalues, Option.map_some] at hl
  cases hl
  exact ⟨(s.bucketsOn_series hspans hvalues).1, hends (Table.isEmpty_eq_false hvalues)⟩

theorem span_of_mem_series {name : String} {buckets : List (Bucket ν)}
    (h : (name, buckets) ∈ report.series) : ∃ ends, s.grid.ends? = some ends ∧
      buckets.map Bucket.span = s.grid.starts.toList.zip ends := by
  obtain ⟨spans, hspans, hall⟩ := s.exists_spans_series
  obtain ⟨hbuckets, hends⟩ := hall name buckets h
  exact ⟨_, hends, hbuckets.trans (List.zip_of_prod hspans rfl)⟩

theorem start_of_mem_series {name : String} {buckets : List (Bucket ν)}
    (h : (name, buckets) ∈ report.series) :
    buckets.map Bucket.start = s.grid.starts.toList := by
  obtain ⟨spans, hspans, hall⟩ := s.exists_spans_series
  rw [start_of_span (hall name buckets h).1, hspans]

/-- A value of the report is found in the table. -/
theorem valueAt?_eq (name : String) (index : Nat) : report.valueAt? name index =
    (s.table.get? name).bind fun values => (values[index]?).bind id := by
  rw [Report.valueAt?]
  cases h : s.table.get? name with
  | none =>
    obtain ⟨spans, -, -, hseries⟩ := s.exists_spans
    rw [hseries, lookup_map_toList, h]
    rfl
  | some values =>
    obtain ⟨buckets, hb, hv⟩ := s.lookup_series h
    have hi : (buckets[index]?).map Bucket.value = values[index]? := by
      rw [← List.getElem?_map, hv, Array.getElem?_toList]
    rw [hb]
    show (buckets[index]?).bind Bucket.value = (values[index]?).bind id
    rw [← hi]
    cases buckets[index]? with
    | none => rfl
    | some bucket => rfl

theorem context_eq (index : Nat) : report.context index = s.table.context index := by
  funext key
  exact s.valueAt?_eq (referenceName key) index

include s in
/-- Every definition has its series in the report. -/
theorem exists_mem_series {d : Definition ν} (hd : d ∈ r.definitions) :
    ∃ buckets, (d.name, buckets) ∈ report.series := by
  obtain ⟨values, hvalues⟩ := s.exists_series hd
  obtain ⟨buckets, hl, -⟩ := s.lookup_series hvalues
  exact ⟨buckets, mem_of_lookup_eq_some hl⟩

theorem map_fst_series : report.series.map Prod.fst = s.table.keys := by
  obtain ⟨spans, -, -, hseries⟩ := s.exists_spans
  rw [hseries, List.map_map, ← Std.TreeMap.map_fst_toList_eq_keys]
  rfl

theorem mem_keys_table {name : String} :
    name ∈ s.table.keys ↔ ∃ d ∈ r.definitions, d.name = name := by
  rw [Std.TreeMap.mem_keys, Std.TreeMap.mem_iff_isSome_getElem?, Option.isSome_iff_exists]
  constructor
  · rintro ⟨series, h⟩
    exact s.mem_table h
  · rintro ⟨d, hd, rfl⟩
    exact s.exists_series hd

/-- The value of a bucket stands at the place of the bucket in the table. -/
theorem getElem?_series {name : String} {values : Array (Option ν)} {buckets : List (Bucket ν)}
    {index : Nat} {bucket : Bucket ν} (hs : s.table.get? name = some values)
    (hl : report.series.lookup name = some buckets) (hb : buckets[index]? = some bucket) :
    index < s.grid.size ∧ values[index]? = some bucket.value := by
  obtain ⟨other, ho, hv⟩ := s.lookup_series hs
  obtain rfl : buckets = other := Option.some.inj (hl.symm.trans ho)
  have hi : values[index]? = some bucket.value := by
    rw [← Array.getElem?_toList, ← hv, List.getElem?_map, hb, Option.map_some]
  rw [← s.size_series hs]
  exact ⟨(Array.getElem?_eq_some_iff.mp hi).1, hi⟩

theorem value_formula {program : Program ν} {name : String} {buckets : List (Bucket ν)}
    {index : Nat} {bucket : Bucket ν}
    (hs : s.table.get? name = some (solution s.table s.grid.size program))
    (hl : report.series.lookup name = some buckets) (hb : buckets[index]? = some bucket) :
    bucket.value = (program.evaluate (report.context index) Registry.standard).toOption := by
  obtain ⟨hlt, hi⟩ := s.getElem?_series hs hl hb
  rw [getElem?_solution hlt] at hi
  rw [s.context_eq]
  exact (Option.some.inj hi).symm

end Stages

variable [Arithmetic ν]

/-- The series of a report are those of the given definitions, all on the grid of the
request. In each bucket a formula has the value that its program comes to over the values
of the report in that bucket, and none if the program comes to none. -/
structure Solves (r : Request ν) (report : Report ν) : Prop where
  nodup : (report.series.map Prod.fst).Nodup
  mem_iff (name : String) :
    name ∈ report.series.map Prod.fst ↔ ∃ d ∈ r.definitions, d.name = name
  starts : ∃ grid, Grid.covering? r.start r.last r.frequency = some grid ∧
    ∀ name buckets, (name, buckets) ∈ report.series →
      buckets.map Bucket.start = grid.starts.toList
  formulas (d : Definition ν) : d ∈ r.definitions → d.isFormula → ∃ program buckets,
    compileOne d = .ok ⟨d, some program⟩ ∧ (d.name, buckets) ∈ report.series ∧
      ∀ index bucket, buckets[index]? = some bucket →
        bucket.value = (program.evaluate (report.context index) Registry.standard).toOption

theorem run_solves {r : Request ν} {report : Report ν} (h : run r = .ok report) :
    Solves r report := by
  obtain ⟨s⟩ := exists_stages h
  refine ⟨?_, ?_, ⟨s.grid, s.covering, fun _ _ => s.start_of_mem_series⟩, ?_⟩
  · rw [s.map_fst_series]
    exact Std.TreeMap.nodup_keys
  · intro name
    rw [s.map_fst_series]
    exact s.mem_keys_table
  · intro d hd hf
    obtain ⟨program, hc, hs⟩ := s.get?_formula hd hf
    obtain ⟨buckets, hl, -⟩ := s.lookup_series hs
    exact ⟨program, buckets, hc, mem_of_lookup_eq_some hl,
      fun index bucket hb => s.value_formula hs hl hb⟩

/-- Two days of a margin over a total over a base, declared in the wrong order. -/
def layered : Request Float where
  definitions := [
    ⟨"margin", none, .formula, some "\"total\" - \"base\"", none, none⟩,
    ⟨"base", none, .sum, none, none, none⟩,
    ⟨"total", none, .formula, some "\"base\" + 1", none, none⟩]
  values _ := [⟨⟨0, 0, by decide, by decide, by decide⟩, 5, none⟩]
  start := ⟨0, 0, by decide, by decide, by decide⟩
  last := ⟨86400, 0, by decide, by decide, by decide⟩
  frequency := .day
  strict := true

theorem run_solves_layered : ∃ report, run layered = .ok report ∧ Solves layered report := by
  have hok : (run layered).isOk = true := by decide +kernel
  cases h : run layered with
  | ok report => exact ⟨report, rfl, run_solves h⟩
  | error fault =>
    rw [h] at hok
    contradiction

end Scorecard.Consolidation
