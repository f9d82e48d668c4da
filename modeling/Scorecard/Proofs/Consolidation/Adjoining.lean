import Scorecard.Proofs.Calendar.Cutting
import Scorecard.Proofs.Consolidation.Accounts
import Scorecard.Proofs.Consolidation.Requirements
import Scorecard.Proofs.Consolidation.Tiling

/-! Runs that adjoin. A run can be cut in two where a bucket starts. The grids of the parts make
up that of the whole, and what is in a bucket does not depend on the run that has it. So the
parts come to the series of the whole, and count together what the whole counts. -/
namespace Scorecard.Consolidation

open Calendar (Frequency Range Timestamp countBound)
open Calendar.Timestamp (IsStart)
open Formula (Context Registry)
open Kpi (Definition)

variable {ν : Type}

/-- A report goes on in each series where another one ends, and counts what both count. They are
reports on as many definitions. -/
structure Report.Joins (report earlier later : Report ν) : Prop where
  series : ∀ name buckets, (name, buckets) ∈ report.series ↔ ∃ first second,
    (name, first) ∈ earlier.series ∧ (name, second) ∈ later.series ∧ buckets = first ++ second
  definitionCount : report.definitionCount = earlier.definitionCount ∧
    report.definitionCount = later.definitionCount
  bucketCount : report.bucketCount = earlier.bucketCount + later.bucketCount
  tally : report.tally = earlier.tally + later.tally

/-- A bucket starts between the start and the end of a run, and not in the first bucket. The
counts do not run out before the end. -/
structure Request.CutAt (r : Request ν) (b before : Timestamp) : Prop where
  start : ∃ s, r.start.roundDown? r.frequency = some s ∧ s < b
  isStart : b.roundDown? r.frequency = some b
  before : b.shift? .second (-1) = some before
  le_last : b ≤ r.last
  count : r.starts.length < countBound

/-- What a run reports of a name in the bucket with this start. -/
def Request.Shows [Arithmetic ν] (r : Request ν) (name : String) (start : Timestamp)
    (bucket : Bucket ν) : Prop :=
  bucket.start = start ∧ start.roundUp? r.frequency = some bucket.last ∧
    ∃ values, r.Valued start values ∧ bucket.value = values name

/-! ### The starts of the parts -/

theorem Request.starts_eq_items {r : Request ν} {s : Timestamp}
    (h : r.start.roundDown? r.frequency = some s) :
    r.starts = (Range.mk s r.last r.frequency).items := by
  rw [Request.starts, Grid.covering?, h]
  rfl

namespace Request.CutAt

variable {r : Request ν} {b before : Timestamp} (h : r.CutAt b before)
include h

theorem starts_eq_items :
    { r with start := b }.starts = (Range.mk b r.last r.frequency).items :=
  Request.starts_eq_items h.isStart

theorem starts_eq : r.starts =
    { r with last := before }.starts ++ { r with start := b }.starts := by
  obtain ⟨s, hs, hlt⟩ := h.start
  have hfirst := Timestamp.roundDown?_eq_some_iff.mp hs
  have hb := Timestamp.roundDown?_eq_some_iff.mp h.isStart
  have hbucket := hb.lt_iff.mp hlt
  rw [hfirst.bucketOf] at hbucket
  obtain ⟨k, hk⟩ := Int.le.dest hbucket.le
  have hcount := h.count
  have hearlier : { r with last := before }.starts = (Range.mk s before r.frequency).items :=
    Request.starts_eq_items hs
  rw [Request.starts_eq_items hs] at hcount ⊢
  rw [hearlier, h.starts_eq_items]
  exact Range.items_eq_append hfirst (hk ▸ hb) h.before h.le_last hcount

theorem head?_starts : { r with start := b }.starts.head? = some b := by
  have hb := Timestamp.roundDown?_eq_some_iff.mp h.isStart
  rw [h.starts_eq_items, Range.head?_items]
  exact Range.item?_zero_of_isStart hb h.le_last

theorem isGrid : IsGrid r r.starts := by
  obtain ⟨s, hs, -⟩ := h.start
  have hgrid : Grid.covering? r.start r.last r.frequency =
      some ⟨r.frequency, (Range.mk s r.last r.frequency).items.toArray⟩ := by
    rw [Grid.covering?, hs]
    rfl
  rw [Request.starts_eq_items hs]
  exact isGrid_of_covering? hgrid

/-- The last bucket before the cut ends where the first one behind it starts. -/
theorem exists_roundUp? : ∀ s ∈ { r with last := before }.starts.getLast?,
    ∃ last, s.roundUp? r.frequency = some last := by
  intro s hs
  have hgrid := h.isGrid
  rw [h.starts_eq] at hgrid
  have hnext := (List.isChain_append.mp hgrid.next).2.2 s hs b h.head?_starts
  have hstart := hgrid.isStart s (List.mem_append_left _ (List.mem_of_getLast? hs))
  exact (Timestamp.roundDown?_eq_some_iff.mp hstart).exists_roundUp?_iff.mpr ⟨b, hnext⟩

variable [Arithmetic ν]

/-- What the whole run requires is what both parts require. -/
theorem holds_iff (hstrict : r.strict = false) (q : Requirement) :
    q.Holds r ↔ q.Holds { r with last := before } ∧ q.Holds { r with start := b } := by
  cases q with
  | start =>
    obtain ⟨s, hs, -⟩ := h.start
    exact iff_of_true ⟨s, hs⟩ ⟨⟨s, hs⟩, b, h.isStart⟩
  | definitions | formulas | references | acyclic | times => exact (and_self_iff).symm
  | evaluation =>
    have hlenient {request : Request ν} (hr : request.strict = false) :
        Requirement.evaluation.Holds request := fun hs => by simp [hr] at hs
    exact iff_of_true (hlenient hstrict) ⟨hlenient hstrict, hlenient hstrict⟩
  | ends =>
    have hlast : r.starts.getLast? = { r with start := b }.starts.getLast? := by
      have hne : { r with start := b }.starts ≠ [] := by
        intro hnil
        have hhead := h.head?_starts
        rw [hnil] at hhead
        contradiction
      rw [h.starts_eq, List.getLast?_append_of_ne_nil _ hne]
    show (r.definitions ≠ [] → ∀ s ∈ r.starts.getLast?, _) ↔ _
    rw [hlast]
    exact ⟨fun hends => ⟨fun _ => h.exists_roundUp?, hends⟩, fun hends => hends.2⟩

end Request.CutAt

/-! ### What is in a bucket -/

theorem forall₂_append_left_iff {α β : Type} {R : α → β → Prop} {xs ys : List α} {zs : List β} :
    List.Forall₂ R (xs ++ ys) zs ↔
      ∃ first second,
        List.Forall₂ R xs first ∧ List.Forall₂ R ys second ∧ zs = first ++ second := by
  induction xs generalizing zs with
  | nil => simp
  | cons x rest ih =>
    simp only [List.cons_append, List.forall₂_cons_left_iff, ih]
    constructor
    · rintro ⟨z, _, hx, ⟨first, second, hf, hs, rfl⟩, rfl⟩
      exact ⟨z :: first, second, ⟨z, first, hx, hf, rfl⟩, hs, rfl⟩
    · rintro ⟨_, second, ⟨z, first, hx, hf, rfl⟩, hs, rfl⟩
      exact ⟨z, first ++ second, hx, ⟨first, second, hf, hs, rfl⟩, rfl⟩

variable [Arithmetic ν] {r : Request ν}

theorem Request.shows_congr {other : Request ν} (hdefinitions : other.definitions = r.definitions)
    (hvalues : other.values = r.values) (hfrequency : other.frequency = r.frequency) :
    other.Shows = r.Shows := by
  unfold Request.Shows
  rw [Request.valued_congr hdefinitions hvalues hfrequency, hfrequency]

theorem Prepared.shows_unique (p : Prepared r) {name : String} {start : Timestamp}
    {bucket other : Bucket ν} (h : r.Shows name start bucket) (ho : r.Shows name start other) :
    bucket = other := by
  obtain ⟨hstart, hlast, values, hv, hvalue⟩ := h
  obtain ⟨hstart', hlast', others, ho, hother⟩ := ho
  rw [p.valued_unique hv ho, ← hother] at hvalue
  have hend := Option.some.inj (hlast.symm.trans hlast')
  exact Bucket.ext_span (Prod.ext (hstart.trans hstart'.symm) hend) hvalue

namespace Stages

variable {report : Report ν} (s : Stages r report)
include s

theorem forall₂_shows {name : String} {buckets : List (Bucket ν)}
    (h : (name, buckets) ∈ report.series) : List.Forall₂ (r.Shows name) r.starts buckets := by
  have hstarts := s.start_of_mem_series h
  have hlast := s.roundUp?_of_mem_series h
  obtain ⟨hlookup, -⟩ := s.lookup_of_mem_series h
  rw [s.starts_eq]
  refine List.forall₂_iff_get.mpr ⟨by rw [← hstarts, List.length_map], fun i hi hb => ?_⟩
  rw [List.get_eq_getElem, List.get_eq_getElem]
  have hbucket := List.getElem?_eq_getElem hb
  have hstart : buckets[i].start = s.grid.starts.toList[i] := by
    simp only [← hstarts, List.getElem_map]
  have hget : s.grid.starts[i]? = some s.grid.starts.toList[i] := by
    rw [← Array.getElem?_toList, List.getElem?_eq_getElem hi]
  refine ⟨hstart, hstart ▸ hlast _ (List.getElem_mem hb), _, s.valued hget, ?_⟩
  rw [← Report.valueAt?_of_lookup hlookup hbucket]
  exact s.valueAt?_eq name i

/-- A series is known from what is in its buckets. -/
theorem mem_series_iff {name : String} {buckets : List (Bucket ν)} :
    (name, buckets) ∈ report.series ↔ (∃ d ∈ r.definitions, d.name = name) ∧
      List.Forall₂ (r.Shows name) r.starts buckets := by
  constructor
  · intro h
    obtain ⟨-, values, hvalues⟩ := s.lookup_of_mem_series h
    exact ⟨s.mem_table hvalues, s.forall₂_shows h⟩
  · rintro ⟨⟨d, hd, rfl⟩, h⟩
    obtain ⟨values, hvalues⟩ := s.exists_series hd
    obtain ⟨others, hl, -⟩ := s.lookup_series hvalues
    have ho := mem_of_lookup_eq_some hl
    have hunique : Relator.RightUnique (r.Shows d.name) := fun _ _ _ => s.shows_unique
    obtain rfl : buckets = others :=
      List.right_unique_forall₂' hunique h (s.forall₂_shows ho)
    exact ho

end Stages

/-! ### The whole and its parts -/

namespace Request.CutAt

variable {b before : Timestamp} (h : r.CutAt b before)
include h

theorem contexts_eq (c : Computed r) (earlier : Computed { r with last := before })
    (later : Computed { r with start := b }) :
    c.contexts = earlier.contexts ++ later.contexts := by
  have hlast : { r with last := before }.Valued = r.Valued := Request.valued_congr rfl rfl rfl
  have hstart : { r with start := b }.Valued = r.Valued := Request.valued_congr rfl rfl rfl
  have hearlier := earlier.solution
  have hlater := later.solution
  rw [Request.Solution, hlast] at hearlier
  rw [Request.Solution, hstart] at hlater
  refine c.solution_unique c.solution ?_
  rw [Request.Solution, h.starts_eq, forall₂_append_left_iff]
  exact ⟨_, _, hearlier, hlater, rfl⟩

theorem joins {report first second : Report ν} (s : Stages r report)
    (earlier : Stages { r with last := before } first)
    (later : Stages { r with start := b } second) :
    report.Joins first second where
  series name buckets := by
    have hlast : { r with last := before }.Shows = r.Shows := Request.shows_congr rfl rfl rfl
    have hstart : { r with start := b }.Shows = r.Shows := Request.shows_congr rfl rfl rfl
    rw [s.mem_series_iff, h.starts_eq, forall₂_append_left_iff]
    simp only [earlier.mem_series_iff, later.mem_series_iff, hlast, hstart]
    constructor
    · rintro ⟨hname, xs, ys, hx, hy, heq⟩
      exact ⟨xs, ys, ⟨hname, hx⟩, ⟨hname, hy⟩, heq⟩
    · rintro ⟨xs, ys, ⟨hname, hx⟩, ⟨-, hy⟩, heq⟩
      exact ⟨hname, xs, ys, hx, hy, heq⟩
  definitionCount := by
    rw [s.definitionCount_eq, earlier.definitionCount_eq, later.definitionCount_eq]
    exact ⟨rfl, rfl⟩
  bucketCount := by
    rw [s.bucketCount_eq, earlier.bucketCount_eq, later.bucketCount_eq, h.starts_eq,
      List.length_append, Nat.mul_add]
  tally := by
    rw [s.tally_eq_of, h.contexts_eq s.toComputed earlier.toComputed later.toComputed]
    simp only [List.filterMap_append]
    rw [← Tally.of_perm (List.flatMap_append_perm _ _ _), Tally.of_append, earlier.tally_eq_of,
      later.tally_eq_of]

end Request.CutAt

/-- A run that goes on can be cut in two where a bucket starts. It comes to a report if and only
if both parts do, and then to that of the earlier part joined with that of the later part. -/
theorem run_joins {s b : Timestamp} (hstrict : r.strict = false)
    (hs : r.start.roundDown? r.frequency = some s) (hb : b.roundDown? r.frequency = some b)
    (hlt : s < b) (hle : b ≤ r.last) (hcount : r.starts.length < countBound) :
    ∃ before, b.shift? .second (-1) = some before ∧
      ((∃ report, run r = .ok report) ↔
        (∃ earlier, run { r with last := before } = .ok earlier) ∧
          ∃ later, run { r with start := b } = .ok later) ∧
      ∀ report earlier later, run r = .ok report → run { r with last := before } = .ok earlier →
        run { r with start := b } = .ok later → report.Joins earlier later := by
  obtain ⟨before, hbefore⟩ : ∃ before, b.shift? .second (-1) = some before := by
    have hb := Timestamp.roundDown?_eq_some_iff.mp hb
    have hsecond := (Timestamp.lt_iff_of_nano hb.nano).mp hlt
    have hfirst := s.first_le
    have hend := b.lt_end
    refine ⟨⟨b.second - 1, b.nano, by omega, by omega, b.nano_lt⟩, ?_⟩
    refine Timestamp.shift?_eq_some_iff.mpr ⟨?_, rfl⟩
    simp only [Timestamp.secondAfter, Frequency.span]
    omega
  have h : r.CutAt b before := ⟨⟨s, hs, hlt⟩, hb, hbefore, hle, hcount⟩
  refine ⟨before, hbefore, ?_, ?_⟩
  · rw [(tests_run _).exists_iff, (tests_run _).exists_iff, (tests_run _).exists_iff]
    simp only [h.holds_iff hstrict, forall_and]
  · intro report first second hreport hfirst hsecond
    obtain ⟨whole⟩ := exists_stages hreport
    obtain ⟨earlier⟩ := exists_stages hfirst
    obtain ⟨later⟩ := exists_stages hsecond
    exact h.joins whole earlier later

/-- The layered request without an end at a failure. -/
def lenient : Request Float :=
  { layered with strict := false }

/-- It can be cut between its two days. -/
theorem run_joins_lenient : ∃ before report earlier later,
    lenient.last.shift? .second (-1) = some before ∧ run lenient = .ok report ∧
      run { lenient with last := before } = .ok earlier ∧
      run { lenient with start := lenient.last } = .ok later ∧ report.Joins earlier later := by
  obtain ⟨before, hbefore, hiff, hjoins⟩ :=
    run_joins (r := lenient) (s := lenient.start) (b := lenient.last) rfl (by decide +kernel)
      (by decide +kernel) (by decide +kernel) (by decide +kernel) (by decide +kernel)
  obtain ⟨report, h⟩ : ∃ report, run lenient = .ok report := exists_eq_ok (by decide +kernel)
  obtain ⟨⟨earlier, he⟩, later, hl⟩ := hiff.mp ⟨report, h⟩
  exact ⟨before, report, earlier, later, hbefore, h, he, hl, hjoins report earlier later h he hl⟩

end Scorecard.Consolidation
