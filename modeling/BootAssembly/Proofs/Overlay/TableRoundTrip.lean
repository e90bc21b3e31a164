import BootAssembly.Overlay.Table
import Mathlib.Data.List.Forall2

namespace BootAssembly

theorem slice_take {s : Span} {n : Nat} (h : s.stop ≤ n) (bytes : Bytes) :
    slice s (bytes.take n) = slice s bytes := by
  rw [slice, slice, Span.length, List.drop_take, List.take_take, Nat.min_eq_left (by omega)]

namespace Traced

variable {τ ε α β : Type} {f : α → Traced τ ε β}

theorem outcome_mapM_eq_ok {as : List α} {bs : List β} :
    (as.mapM f).outcome = .ok bs ↔ List.Forall₂ (fun a b => (f a).outcome = .ok b) as bs := by
  induction as generalizing bs with
  | nil => simp [eq_comm]
  | cons a as ih =>
    simp only [List.mapM_cons, outcome_bind_eq_ok, outcome_pure, Except.ok.injEq, ih,
      List.forall₂_cons_left_iff]
    constructor
    · rintro ⟨b, hb, bs, hbs, rfl⟩
      exact ⟨b, bs, hb, hbs, rfl⟩
    · rintro ⟨b, bs, hb, hbs, rfl⟩
      exact ⟨b, hb, bs, hbs, rfl⟩

theorem outcome_mapM_range_eq_ok {f : Nat → Traced τ ε β} {n : Nat} {bs : List β} :
    ((List.range n).mapM f).outcome = .ok bs ↔
      bs.length = n ∧ ∀ i b, bs[i]? = some b → (f i).outcome = .ok b := by
  rw [outcome_mapM_eq_ok]
  constructor
  · intro h
    have hlength : bs.length = n := by simpa using h.length_eq.symm
    refine ⟨hlength, fun i b hb => ?_⟩
    obtain ⟨hi, rfl⟩ := List.getElem?_eq_some_iff.mp hb
    simpa using h.get (by simpa [hlength] using hi) hi
  · rintro ⟨rfl, h⟩
    apply List.forall₂_of_length_eq_of_get (by simp)
    intro i hi hb
    simpa using h i bs[i] (List.getElem?_eq_getElem hb)

end Traced

namespace Overlay

structure Row where
  offset : UInt32
  blob : Bytes
  id : UInt32
  revision : UInt32
  custom : List UInt32
  custom_length : custom.length = 4

namespace Row

variable (r : Row)

def entry : Entry := ⟨.ofNat r.blob.length, r.offset, r.id, r.revision, r.custom⟩

def cells : List UInt32 :=
  [.ofNat r.blob.length, r.offset, r.id, r.revision] ++ r.custom

theorem ofBytes_cells : Entry.ofBytes (ofCells r.cells) = r.entry := by
  obtain ⟨offset, blob, id, revision, custom, hcustom⟩ := r
  match custom, hcustom with
  | [a, b, c, d], _ =>
    have cell (i : Nat) (hi : i < 8) :
        be32At (ofCells [.ofNat blob.length, offset, id, revision, a, b, c, d]) (4 * i) =
          [.ofNat blob.length, offset, id, revision, a, b, c, d][i] := by
      have := be32At_ofCells [.ofNat blob.length, offset, id, revision, a, b, c, d] [] i hi
      rwa [List.append_nil] at this
    simp only [Entry.ofBytes, entry, cells, List.cons_append, List.nil_append, Entry.mk.injEq,
      List.cons.injEq, and_true]
    exact ⟨cell 0 (by decide), cell 1 (by decide), cell 2 (by decide), cell 3 (by decide),
      cell 4 (by decide), cell 5 (by decide), cell 6 (by decide), cell 7 (by decide)⟩

end Row

structure Blueprint where
  totalSize : UInt32
  headerSize : UInt32
  stride : UInt32
  first : UInt32
  pageSize : UInt32
  version : UInt32
  rows : List Row
  header_whole : Table.headerSize ≤ headerSize.toNat
  header_inside : Table.headerSize ≤ totalSize.toNat
  row_whole : Entry.byteSize ≤ stride.toNat
  rows_inside : first.toNat + rows.length * stride.toNat ≤ totalSize.toNat
  blobs_inside : ∀ r ∈ rows, r.offset.toNat + r.blob.length ≤ totalSize.toNat

namespace Blueprint

variable (b : Blueprint)

def headerCells : List UInt32 :=
  [Table.magic, b.totalSize, b.headerSize, b.stride, .ofNat b.rows.length, b.first, b.pageSize,
    b.version]

def rowStart (i : Nat) : Nat := b.first.toNat + i * b.stride.toNat

def table : Table := ⟨b.totalSize, b.pageSize, b.version, b.rows.map Row.entry⟩

/-- The bytes hold the table: every part of it stands in its place. What stands between the parts
and behind the table is free. -/
structure WrittenIn (bytes : Bytes) : Prop where
  total : b.totalSize.toNat ≤ bytes.length
  header : slice ⟨0, Table.headerSize⟩ bytes = ofCells b.headerCells
  rows : ∀ i r, b.rows[i]? = some r →
    slice ⟨b.rowStart i, b.rowStart i + Entry.byteSize⟩ bytes = ofCells r.cells
  blobs : ∀ r ∈ b.rows, slice r.entry.span bytes = r.blob

end Blueprint

namespace Table

theorem readEntry_eq_ok {table : Bytes} {start : Nat} {e : Entry} :
    readEntry table start = .ok e ↔ start + Entry.byteSize ≤ table.length ∧
      e = .ofBytes (slice ⟨start, start + Entry.byteSize⟩ table) ∧ e.span.stop ≤ table.length := by
  have hrow : (table.drop start).take Entry.byteSize =
      slice ⟨start, start + Entry.byteSize⟩ table := by
    rw [slice, Span.length, Nat.add_sub_cancel_left]
  have hwhole : (slice ⟨start, start + Entry.byteSize⟩ table).length < Entry.byteSize ↔
      ¬ start + Entry.byteSize ≤ table.length := by
    rw [← hrow, List.length_take, List.length_drop, Entry.byteSize]
    omega
  have hwords (e : Entry) : e.offset.toNat + e.size.toNat < sizeLimit := by
    have hoffset := e.offset.toNat_lt
    have hsize := e.size.toNat_lt
    have hlimit : 2 ^ 32 + 2 ^ 32 ≤ sizeLimit := by decide
    omega
  simp only [readEntry, hrow, hwhole, guard_eq_ok, not_not]
  apply and_congr_right
  intro _
  simp only [bind_eq_ok, discard_eq_ok, span_eq_ok]
  constructor
  · rintro ⟨_, ⟨_, -, hstop, -⟩, h⟩
    cases h
    exact ⟨rfl, hstop⟩
  · rintro ⟨rfl, hstop⟩
    exact ⟨⟨⟩, ⟨_, hwords _, hstop, rfl⟩, rfl⟩

theorem parse_eq_ok {bytes : Bytes} {t : Table} :
    (parse bytes).outcome = .ok t ↔ headerSize ≤ bytes.length ∧ be32At bytes 0 = magic ∧
      ((be32At bytes 4).toNat ≤ bytes.length ∧ headerSize ≤ (be32At bytes 4).toNat) ∧
      headerSize ≤ (be32At bytes 8).toNat ∧ Entry.byteSize ≤ (be32At bytes 12).toNat ∧
      (be32At bytes 20).toNat + (be32At bytes 16).toNat * (be32At bytes 12).toNat ≤
        (be32At bytes 4).toNat ∧
      t.totalSize = be32At bytes 4 ∧ t.pageSize = be32At bytes 24 ∧ t.version = be32At bytes 28 ∧
      t.entries.length = (be32At bytes 16).toNat ∧
      ∀ i e, t.entries[i]? = some e →
        readEntry (bytes.take (be32At bytes 4).toNat)
          ((be32At bytes 20).toNat + i * (be32At bytes 12).toNat) = .ok e := by
  unfold parse
  rw [Traced.outcome_guard_eq_ok (by simp)]
  apply and_congr (by rw [List.length_take]; omega)
  rw [Traced.outcome_guard_eq_ok (by simp)]
  apply and_congr not_not
  rw [Traced.outcome_guard_eq_ok (by simp)]
  apply and_congr (by rw [not_or, Nat.not_lt, Nat.not_lt])
  rw [Traced.outcome_guard_eq_ok (by simp)]
  apply and_congr (by rw [Nat.not_lt])
  rw [Traced.outcome_guard_eq_ok (by simp)]
  apply and_congr (by rw [Nat.not_lt])
  generalize be32At bytes 4 = total
  generalize be32At bytes 12 = stride
  generalize be32At bytes 16 = count
  generalize be32At bytes 20 = first
  have hrows : count.toNat * stride.toNat < sizeLimit :=
    Nat.mul_lt_mul'' count.toNat_lt stride.toNat_lt
  have hwithin {n : Nat} (h : n ≤ total.toNat) : n < sizeLimit := by
    have htotal := total.toNat_lt
    have hlimit : 2 ^ 32 ≤ sizeLimit := by decide
    omega
  simp only [Traced.outcome_bind_eq_ok, Traced.outcome_discard_eq_ok,
    Traced.outcome_mapM_range_eq_ok]
  constructor
  · rintro ⟨rows, hrows, _, ⟨_, hspan⟩, entries, ⟨hcount, hentries⟩, _, -, ht⟩
    cases ht
    obtain ⟨-, rfl⟩ := mulSize_eq_ok.mp hrows
    obtain ⟨-, hinside, -⟩ := span_eq_ok.mp hspan
    refine ⟨hinside, rfl, rfl, rfl, hcount, fun i e he => ?_⟩
    obtain ⟨start, hstart, he⟩ := hentries i e he
    obtain ⟨-, rfl⟩ := addSize_eq_ok.mp hstart
    exact he
  · rintro ⟨hinside, htotal, hpage, hversion, hcount, hentries⟩
    refine ⟨_, mulSize_eq_ok.mpr ⟨hrows, rfl⟩, ⟨⟩,
      ⟨_, span_eq_ok.mpr ⟨hwithin hinside, hinside, rfl⟩⟩, t.entries,
      ⟨hcount, fun i e he => ?_⟩, (), rfl, ?_⟩
    · obtain ⟨hi, -⟩ := List.getElem?_eq_some_iff.mp he
      have hrow : i * stride.toNat ≤ count.toNat * stride.toNat :=
        Nat.mul_le_mul_right _ (by omega)
      exact ⟨_, addSize_eq_ok.mpr ⟨hwithin (by omega), rfl⟩, hentries i e he⟩
    · rw [← htotal, ← hpage, ← hversion]
      rfl

theorem blob_of_getElem? {t : Table} {bytes : Bytes} {i : Nat} {e : Entry}
    (he : t.entries[i]? = some e) (hstop : e.span.stop ≤ bytes.length) :
    t.blob bytes i = .ok (slice e.span bytes) := by
  have hslice : slice? e.span bytes = some (slice e.span bytes) :=
    slice?_eq_some.mpr ⟨Nat.le_add_right _ _, hstop, rfl⟩
  simp only [blob, he, hslice]

end Table

namespace Blueprint

variable {b : Blueprint} {bytes : Bytes}

theorem rows_lt (b : Blueprint) : b.rows.length < UInt32.size := by
  have htotal := b.totalSize.toNat_lt
  have hwhole : b.rows.length * Entry.byteSize ≤ b.rows.length * b.stride.toNat :=
    Nat.mul_le_mul_left _ b.row_whole
  have hinside := b.rows_inside
  rw [Entry.byteSize] at hwhole
  rw [show UInt32.size = 2 ^ 32 from rfl]
  omega

theorem size_entry {r : Row} (hr : r ∈ b.rows) : r.entry.size.toNat = r.blob.length := by
  have htotal := b.totalSize.toNat_lt
  have hinside := b.blobs_inside r hr
  exact UInt32.toNat_ofNat_of_lt' (by rw [show UInt32.size = 2 ^ 32 from rfl]; omega)

theorem stop_entry_le {r : Row} (hr : r ∈ b.rows) : r.entry.span.stop ≤ b.totalSize.toNat := by
  have hinside := b.blobs_inside r hr
  rwa [← size_entry hr] at hinside

theorem WrittenIn.headerCell (h : b.WrittenIn bytes) (i : Nat) (hi : i < 8) :
    be32At bytes (4 * i) = b.headerCells[i] := by
  have hsplit : bytes = ofCells b.headerCells ++ bytes.drop Table.headerSize := by
    rw [← h.header, slice, Span.length, List.drop_zero, Nat.sub_zero, List.take_append_drop]
  rw [hsplit]
  exact be32At_ofCells b.headerCells _ i hi

theorem WrittenIn.readEntry (h : b.WrittenIn bytes) {i : Nat} {r : Row} (hr : b.rows[i]? = some r) :
    Table.readEntry (bytes.take b.totalSize.toNat) (b.rowStart i) = .ok r.entry := by
  have hmem := List.mem_of_getElem? hr
  obtain ⟨hi, -⟩ := List.getElem?_eq_some_iff.mp hr
  have hlength : (bytes.take b.totalSize.toNat).length = b.totalSize.toNat := by
    rw [List.length_take, Nat.min_eq_left h.total]
  have hrow : b.rowStart i + Entry.byteSize ≤ b.totalSize.toNat := by
    have hwhole := b.row_whole
    have hinside := b.rows_inside
    have hnext : (i + 1) * b.stride.toNat ≤ b.rows.length * b.stride.toNat :=
      Nat.mul_le_mul_right _ hi
    rw [Nat.succ_mul] at hnext
    rw [rowStart]
    omega
  rw [Table.readEntry_eq_ok, hlength, slice_take hrow, h.rows i r hr, Row.ofBytes_cells]
  exact ⟨hrow, rfl, stop_entry_le hmem⟩

theorem WrittenIn.parse_eq_ok (h : b.WrittenIn bytes) :
    (Table.parse bytes).outcome = .ok b.table := by
  have hcount : (UInt32.ofNat b.rows.length).toNat = b.rows.length :=
    UInt32.toNat_ofNat_of_lt' b.rows_lt
  have hlong := h.total
  have hheader := b.header_inside
  rw [Table.parse_eq_ok, h.headerCell 0 (by decide), h.headerCell 1 (by decide),
    h.headerCell 2 (by decide), h.headerCell 3 (by decide), h.headerCell 4 (by decide),
    h.headerCell 5 (by decide), h.headerCell 6 (by decide), h.headerCell 7 (by decide)]
  simp only [headerCells, List.getElem_cons_zero, List.getElem_cons_succ, hcount]
  refine ⟨by omega, trivial, ⟨h.total, b.header_inside⟩, b.header_whole, b.row_whole, b.rows_inside,
    rfl, rfl, rfl, List.length_map _, fun i e he => ?_⟩
  rw [table, List.getElem?_map] at he
  obtain ⟨r, hr, rfl⟩ := Option.map_eq_some_iff.mp he
  exact h.readEntry hr

theorem WrittenIn.blob_eq_ok (h : b.WrittenIn bytes) {i : Nat} {r : Row}
    (hr : b.rows[i]? = some r) : b.table.blob bytes i = .ok r.blob := by
  have hmem := List.mem_of_getElem? hr
  have hentry : b.table.entries[i]? = some r.entry := by
    rw [table, List.getElem?_map, hr]
    rfl
  have hstop := Nat.le_trans (stop_entry_le hmem) h.total
  rw [Table.blob_of_getElem? hentry hstop, h.blobs r hmem]

end Blueprint

/-- Whatever is written as a table is read back row by row and blob by blob; and of any table that
is read, every blob lies within the table and there are no others. -/
theorem table_reads_back :
    (∀ (b : Blueprint) (bytes : Bytes), b.WrittenIn bytes →
      (Table.parse bytes).outcome = .ok b.table ∧
        ∀ (i : Nat) (r : Row), b.rows[i]? = some r → b.table.blob bytes i = .ok r.blob) ∧
    ∀ (bytes : Bytes) (t : Table), (Table.parse bytes).outcome = .ok t →
      t.totalSize.toNat ≤ bytes.length ∧
      (∀ (i : Nat) (e : Entry), t.entries[i]? = some e →
        e.offset.toNat + e.size.toNat ≤ t.totalSize.toNat ∧
          ∃ blob, t.blob bytes i = .ok blob ∧ blob.length = e.size.toNat ∧
            blob = slice e.span bytes) ∧
      ∀ i, t.entries.length ≤ i →
        t.blob bytes i = .error (.invalidFormat "dt_table index out of range") := by
  refine ⟨fun b bytes h => ⟨h.parse_eq_ok, fun i r hr => h.blob_eq_ok hr⟩, fun bytes t h => ?_⟩
  obtain ⟨-, -, ⟨htotal, -⟩, -, -, -, hsize, -, -, -, hentries⟩ := Table.parse_eq_ok.mp h
  rw [hsize]
  refine ⟨htotal, fun i e he => ?_, fun i hi => ?_⟩
  · obtain ⟨-, -, hstop⟩ := Table.readEntry_eq_ok.mp (hentries i e he)
    rw [List.length_take, Nat.min_eq_left htotal] at hstop
    have hinside := Nat.le_trans hstop htotal
    refine ⟨hstop, _, Table.blob_of_getElem? he hinside, ?_, rfl⟩
    rw [length_slice hinside, Span.length, Entry.span, Nat.add_sub_cancel_left]
  · simp only [Table.blob, List.getElem?_eq_none hi]

def interleaved : Blueprint where
  totalSize := 130
  headerSize := 36
  stride := 40
  first := 48
  pageSize := 4096
  version := 1
  rows := [⟨32, [1, 2, 3], 7, 0, [0, 0, 0, 9], rfl⟩, ⟨128, [4, 5], 8, 1, [0, 0, 0, 0], rfl⟩]
  header_whole := by decide
  header_inside := by decide
  row_whole := by decide
  rows_inside := by decide
  blobs_inside := by decide

def interleavedBytes : Bytes :=
  ofCells interleaved.headerCells ++ [1, 2, 3] ++ List.replicate 13 0 ++
    (interleaved.rows.flatMap fun r => ofCells r.cells ++ List.replicate 8 0xff) ++ [4, 5] ++ [0xd0]

theorem table_reads_back_interleaved : interleaved.WrittenIn interleavedBytes ∧
    (Table.parse interleavedBytes).outcome = .ok interleaved.table ∧
      interleaved.table.blob interleavedBytes 1 = .ok [4, 5] ∧
      interleaved.table.blob interleavedBytes 2 =
        .error (.invalidFormat "dt_table index out of range") := by
  have hwritten : interleaved.WrittenIn interleavedBytes := by
    refine ⟨by decide +kernel, by decide +kernel, fun i r hr => ?_, by decide +kernel⟩
    match i, hr with
    | 0, rfl => decide +kernel
    | 1, rfl => decide +kernel
  obtain ⟨hparse, hblobs⟩ := table_reads_back.1 interleaved interleavedBytes hwritten
  obtain ⟨-, -, hbeyond⟩ := table_reads_back.2 interleavedBytes interleaved.table hparse
  exact ⟨hwritten, hparse, hblobs 1 _ rfl, hbeyond 2 (by decide)⟩

end Overlay

end BootAssembly
