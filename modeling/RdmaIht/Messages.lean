import RdmaIht.Base128

/-! The messages of `rdma.proto` and `metrics.proto`, as their generated code reads, writes
and merges them.

A field that is not set is `none`; its has-bit and its value are one thing here.
-/

set_option autoImplicit false

namespace RdmaIht.Proto

open Protobuf

/-! ## Messages -/

structure RemoteObjectProto (R : Runtime) where
  id : Option Bytes := none
  raddr : Option (BitVec 64) := none
  size : Option (BitVec 32) := none
  lkey : Option (BitVec 32) := none
  rkey : Option (BitVec 32) := none
  unknownFields : List R.Unknown := []

structure CounterProto (R : Runtime) where
  count : Option (BitVec 64) := none
  unknownFields : List R.Unknown := []

structure StopwatchProto (R : Runtime) where
  runtimeNs : Option (BitVec 64) := none
  unknownFields : List R.Unknown := []

structure SummaryProto (R : Runtime) where
  units : Option Bytes := none
  mean : Option (BitVec 64) := none
  stddev : Option (BitVec 64) := none
  min : Option (BitVec 64) := none
  p50 : Option (BitVec 64) := none
  p90 : Option (BitVec 64) := none
  p95 : Option (BitVec 64) := none
  p99 : Option (BitVec 64) := none
  p999 : Option (BitVec 64) := none
  max : Option (BitVec 64) := none
  count : Option (BitVec 64) := none
  unknownFields : List R.Unknown := []

/-- `oneof metric` -/
inductive Metric (R : Runtime) where
  | counter (m : CounterProto R)
  | stopwatch (m : StopwatchProto R)
  | summary (m : SummaryProto R)

structure MetricProto (R : Runtime) where
  name : Option Bytes := none
  metric : Option (Metric R) := none
  unknownFields : List R.Unknown := []

section Generated

variable (R : Runtime)

/-! ## Generated code -/

def RemoteObjectProto.schema : Schema R (RemoteObjectProto R) where
  fields := [
    stringField R 1 10 (fun m => m.id) fun m x => { m with id := x },
    numberField R.varint64 2 16 (fun m => m.raddr) fun m x => { m with raddr := x },
    numberField R.varint32 3 24 (fun m => m.size) fun m x => { m with size := x },
    numberField R.varint32 4 32 (fun m => m.lkey) fun m x => { m with lkey := x },
    numberField R.varint32 5 40 (fun m => m.rkey) fun m x => { m with rkey := x }]
  unknown := fun m => m.unknownFields
  putUnknown := fun m us => { m with unknownFields := us }

def CounterProto.schema : Schema R (CounterProto R) where
  fields := [numberField R.varint64 1 8 (fun m => m.count) fun m x => { m with count := x }]
  unknown := fun m => m.unknownFields
  putUnknown := fun m us => { m with unknownFields := us }

def StopwatchProto.schema : Schema R (StopwatchProto R) where
  fields := [numberField R.varint64 1 8 (fun m => m.runtimeNs) fun m x => { m with runtimeNs := x }]
  unknown := fun m => m.unknownFields
  putUnknown := fun m us => { m with unknownFields := us }

def SummaryProto.schema : Schema R (SummaryProto R) where
  fields := [
    stringField R 1 10 (fun m => m.units) fun m x => { m with units := x },
    numberField R.double 2 17 (fun m => m.mean) fun m x => { m with mean := x },
    numberField R.double 3 25 (fun m => m.stddev) fun m x => { m with stddev := x },
    numberField R.double 4 33 (fun m => m.min) fun m x => { m with min := x },
    numberField R.double 6 49 (fun m => m.p50) fun m x => { m with p50 := x },
    numberField R.double 7 57 (fun m => m.p90) fun m x => { m with p90 := x },
    numberField R.double 8 65 (fun m => m.p95) fun m x => { m with p95 := x },
    numberField R.double 9 73 (fun m => m.p99) fun m x => { m with p99 := x },
    numberField R.double 10 81 (fun m => m.p999) fun m x => { m with p999 := x },
    numberField R.double 11 89 (fun m => m.max) fun m x => { m with max := x },
    numberField R.varint64 12 96 (fun m => m.count) fun m x => { m with count := x }]
  unknown := fun m => m.unknownFields
  putUnknown := fun m us => { m with unknownFields := us }

variable {R}

namespace MetricProto

def counter (m : MetricProto R) : Option (CounterProto R) :=
  match m.metric with
  | some (.counter n) => some n
  | _ => none

def stopwatch (m : MetricProto R) : Option (StopwatchProto R) :=
  match m.metric with
  | some (.stopwatch n) => some n
  | _ => none

def summary (m : MetricProto R) : Option (SummaryProto R) :=
  match m.metric with
  | some (.summary n) => some n
  | _ => none

/-- `_internal_mutable_counter`: a metric of another kind is cleared. -/
def mutableCounter (m : MetricProto R) : CounterProto R := m.counter.getD {}

def mutableStopwatch (m : MetricProto R) : StopwatchProto R := m.stopwatch.getD {}

def mutableSummary (m : MetricProto R) : SummaryProto R := m.summary.getD {}

variable (R)

def schema : Schema R (MetricProto R) where
  fields := [
    stringField R 1 10 (fun m => m.name) fun m x => { m with name := x },
    messageField (CounterProto.schema R) 2 18 counter mutableCounter fun m n => { m with metric := some (.counter n) },
    messageField (StopwatchProto.schema R) 3 26 stopwatch mutableStopwatch fun m n =>
      { m with metric := some (.stopwatch n) },
    messageField (SummaryProto.schema R) 4 34 summary mutableSummary fun m n => { m with metric := some (.summary n) }]
  unknown := fun m => m.unknownFields
  putUnknown := fun m us => { m with unknownFields := us }

end MetricProto

end Generated

/-! ## Merging -/

variable {R : Runtime}

def RemoteObjectProto.mergeImpl (toMsg fromMsg : RemoteObjectProto R) : RemoteObjectProto R where
  id := fromMsg.id.or toMsg.id
  raddr := fromMsg.raddr.or toMsg.raddr
  size := fromMsg.size.or toMsg.size
  lkey := fromMsg.lkey.or toMsg.lkey
  rkey := fromMsg.rkey.or toMsg.rkey
  unknownFields := toMsg.unknownFields ++ fromMsg.unknownFields

def CounterProto.mergeImpl (toMsg fromMsg : CounterProto R) : CounterProto R where
  count := fromMsg.count.or toMsg.count
  unknownFields := toMsg.unknownFields ++ fromMsg.unknownFields

def StopwatchProto.mergeImpl (toMsg fromMsg : StopwatchProto R) : StopwatchProto R where
  runtimeNs := fromMsg.runtimeNs.or toMsg.runtimeNs
  unknownFields := toMsg.unknownFields ++ fromMsg.unknownFields

def SummaryProto.mergeImpl (toMsg fromMsg : SummaryProto R) : SummaryProto R where
  units := fromMsg.units.or toMsg.units
  mean := fromMsg.mean.or toMsg.mean
  stddev := fromMsg.stddev.or toMsg.stddev
  min := fromMsg.min.or toMsg.min
  p50 := fromMsg.p50.or toMsg.p50
  p90 := fromMsg.p90.or toMsg.p90
  p95 := fromMsg.p95.or toMsg.p95
  p99 := fromMsg.p99.or toMsg.p99
  p999 := fromMsg.p999.or toMsg.p999
  max := fromMsg.max.or toMsg.max
  count := fromMsg.count.or toMsg.count
  unknownFields := toMsg.unknownFields ++ fromMsg.unknownFields

def MetricProto.mergeImpl (toMsg fromMsg : MetricProto R) : MetricProto R where
  name := fromMsg.name.or toMsg.name
  metric :=
    match fromMsg.metric with
    | some (.counter n) => some (.counter (toMsg.mutableCounter.mergeImpl n))
    | some (.stopwatch n) => some (.stopwatch (toMsg.mutableStopwatch.mergeImpl n))
    | some (.summary n) => some (.summary (toMsg.mutableSummary.mergeImpl n))
    | none => toMsg.metric
  unknownFields := toMsg.unknownFields ++ fromMsg.unknownFields

theorem RemoteObjectProto.mergeFrom_eq (m fromMsg : RemoteObjectProto R) :
    (schema R).mergeFrom m fromMsg = m.mergeImpl fromMsg := rfl

theorem MetricProto.mergeFrom_eq (m fromMsg : MetricProto R) : (schema R).mergeFrom m fromMsg = m.mergeImpl fromMsg := by
  obtain ⟨name, metric, unknownFields⟩ := fromMsg
  rcases metric with _ | (_ | _ | _) <;> rfl

/-! ## What is read and written -/

theorem RemoteObjectProto.lawful (runtime : R.Lawful) : (schema R).Lawful (schema R).Sound := by
  refine Schema.lawful_of_fields (show ([10, 16, 24, 32, 40] : List (BitVec 8)).Nodup by decide) ?_ (fun _ => rfl)
    (fun _ _ => rfl) fun _ _ _ => rfl
  simp only [schema, List.forall_mem_cons]
  exact ⟨stringField_lawful runtime rfl (by decide) (fun _ => rfl) fun _ holds => holds,
    numberField_lawful runtime.varint64 rfl (by decide) (fun _ => rfl) fun _ holds => holds,
    numberField_lawful runtime.varint32 rfl (by decide) (fun _ => rfl) fun _ holds => holds,
    numberField_lawful runtime.varint32 rfl (by decide) (fun _ => rfl) fun _ holds => holds,
    numberField_lawful runtime.varint32 rfl (by decide) (fun _ => rfl) fun _ holds => holds, by simp⟩

theorem CounterProto.lawful (runtime : R.Lawful) : (schema R).Lawful (schema R).Sound := by
  refine Schema.lawful_of_fields (show ([8] : List (BitVec 8)).Nodup by decide) ?_ (fun _ => rfl) (fun _ _ => rfl)
    fun _ _ _ => rfl
  simp only [schema, List.forall_mem_cons]
  exact ⟨numberField_lawful runtime.varint64 rfl (by decide) (fun _ => rfl) fun _ holds => holds, by simp⟩

theorem StopwatchProto.lawful (runtime : R.Lawful) : (schema R).Lawful (schema R).Sound := by
  refine Schema.lawful_of_fields (show ([8] : List (BitVec 8)).Nodup by decide) ?_ (fun _ => rfl) (fun _ _ => rfl)
    fun _ _ _ => rfl
  simp only [schema, List.forall_mem_cons]
  exact ⟨numberField_lawful runtime.varint64 rfl (by decide) (fun _ => rfl) fun _ holds => holds, by simp⟩

theorem SummaryProto.lawful (runtime : R.Lawful) : (schema R).Lawful (schema R).Sound := by
  refine Schema.lawful_of_fields
    (show ([10, 17, 25, 33, 49, 57, 65, 73, 81, 89, 96] : List (BitVec 8)).Nodup by decide) ?_ (fun _ => rfl)
    (fun _ _ => rfl) fun _ _ _ => rfl
  have double {number : Nat} {tagByte : BitVec 8} {get : SummaryProto R → Option (BitVec 64)}
      {put : SummaryProto R → Option (BitVec 64) → SummaryProto R} (number_eq : tagByte.toNat / 8 = number)
      (one_byte : tagByte.toNat < 128) (put_get : ∀ m, put m (get m) = m)
      (keeps : ∀ {m} x, (schema R).Sound m → (schema R).Sound (put m x)) :
      (numberField R.double number tagByte get put).Lawful R (schema R).Sound :=
    numberField_lawful runtime.double number_eq one_byte put_get keeps
  simp only [schema, List.forall_mem_cons]
  exact ⟨stringField_lawful runtime rfl (by decide) (fun _ => rfl) fun _ holds => holds,
    double rfl (by decide) (fun _ => rfl) fun _ holds => holds,
    double rfl (by decide) (fun _ => rfl) fun _ holds => holds,
    double rfl (by decide) (fun _ => rfl) fun _ holds => holds,
    double rfl (by decide) (fun _ => rfl) fun _ holds => holds,
    double rfl (by decide) (fun _ => rfl) fun _ holds => holds,
    double rfl (by decide) (fun _ => rfl) fun _ holds => holds,
    double rfl (by decide) (fun _ => rfl) fun _ holds => holds,
    double rfl (by decide) (fun _ => rfl) fun _ holds => holds,
    double rfl (by decide) (fun _ => rfl) fun _ holds => holds,
    numberField_lawful runtime.varint64 rfl (by decide) (fun _ => rfl) fun _ holds => holds, by simp⟩

def Metric.Sound : Metric R → Prop
  | .counter n => (CounterProto.schema R).Sound n
  | .stopwatch n => (StopwatchProto.schema R).Sound n
  | .summary n => (SummaryProto.schema R).Sound n

namespace MetricProto

variable {m : MetricProto R}

structure Sound (m : MetricProto R) : Prop where
  own : (schema R).Sound m
  metric : ∀ {n}, m.metric = some n → n.Sound

theorem metric_of_counter {n : CounterProto R} (found : m.counter = some n) : m.metric = some (.counter n) := by
  unfold counter at found
  split at found
  · next same =>
    cases found
    exact same
  · cases found

theorem metric_of_stopwatch {n : StopwatchProto R} (found : m.stopwatch = some n) : m.metric = some (.stopwatch n) := by
  unfold stopwatch at found
  split at found
  · next same =>
    cases found
    exact same
  · cases found

theorem metric_of_summary {n : SummaryProto R} (found : m.summary = some n) : m.metric = some (.summary n) := by
  unfold summary at found
  split at found
  · next same =>
    cases found
    exact same
  · cases found

theorem lawful (runtime : R.Lawful) : (schema R).Lawful MetricProto.Sound where
  distinct := show ([10, 18, 26, 34] : List (BitVec 8)).Nodup by decide
  field := by
    have set {m : MetricProto R} (n : Metric R) (holds : m.Sound) (inner : n.Sound) :
        ({ m with metric := some n } : MetricProto R).Sound := ⟨holds.own, fun same => Option.some.inj same ▸ inner⟩
    simp only [schema, List.forall_mem_cons]
    refine ⟨?_, ?_, ?_, ?_, by simp⟩
    · exact stringField_lawful runtime rfl (by decide) (fun _ => rfl) fun _ holds => ⟨holds.own, holds.metric⟩
    · exact messageField_lawful runtime (CounterProto.lawful runtime) rfl (by decide)
        (fun holds found => holds.metric (metric_of_counter found))
        (fun holds => Schema.Sound.getD rfl fun found => holds.metric (metric_of_counter found))
        fun holds inner => set (.counter _) holds inner
    · exact messageField_lawful runtime (StopwatchProto.lawful runtime) rfl (by decide)
        (fun holds found => holds.metric (metric_of_stopwatch found))
        (fun holds => Schema.Sound.getD rfl fun found => holds.metric (metric_of_stopwatch found))
        fun holds inner => set (.stopwatch _) holds inner
    · exact messageField_lawful runtime (SummaryProto.lawful runtime) rfl (by decide)
        (fun holds found => holds.metric (metric_of_summary found))
        (fun holds => Schema.Sound.getD rfl fun found => holds.metric (metric_of_summary found))
        fun holds inner => set (.summary _) holds inner
  foreign := fun holds => holds.own
  add_sound := fun holds foreign => ⟨holds.own.add (fun _ _ => rfl) foreign, holds.metric⟩
  put_unknown := fun _ => rfl
  unknown_put := fun _ _ => rfl
  put_put := fun _ _ _ => rfl

theorem blank : ({} : MetricProto R).Sound where
  own := .of_nil rfl
  metric := by
    intro n set
    cases set

theorem empty_mergeImpl (m : MetricProto R) : ({} : MetricProto R).mergeImpl m = m := by
  obtain ⟨name, metric, unknownFields⟩ := m
  rcases metric with _ | (_ | _ | _) <;>
    simp [mergeImpl, mutableCounter, mutableStopwatch, mutableSummary, counter, stopwatch, summary,
      CounterProto.mergeImpl, StopwatchProto.mergeImpl, SummaryProto.mergeImpl]

end MetricProto

theorem RemoteObjectProto.empty_mergeImpl (m : RemoteObjectProto R) : ({} : RemoteObjectProto R).mergeImpl m = m := by
  simp [mergeImpl]

/-- Metrics written one behind the other are read as all of them merged, in that order, into what
was there: a metric of another kind replaces it, one of its kind is merged field by field. -/
theorem serialized_metrics_merge (runtime : R.Lawful) (m : MetricProto R) (sources : List (MetricProto R))
    (sound : ∀ source ∈ sources, source.Sound)
    (small : ∀ source ∈ sources, (MetricProto.schema R).byteSizeLong source ≤ R.maxSize) :
    (MetricProto.schema R).mergeFromString m (sources.flatMap (MetricProto.schema R).internalSerialize) =
      some (sources.foldl MetricProto.mergeImpl m) := by
  have lawful := MetricProto.lawful runtime
  have merged := lawful.mergeFromString_serialized runtime m sources sound fun source member => by
    rw [lawful.length_serialized runtime]
    exact small source member
  rw [merged]
  have same : (MetricProto.schema R).mergeFrom = MetricProto.mergeImpl := by
    funext m source
    exact MetricProto.mergeFrom_eq m source
  rw [same]

/-- A summary with a field that `metrics.proto` does not have replaces a counter. -/
theorem serialized_metrics_merge_summary : (MetricProto.schema base128).mergeFromString
    { metric := some (.counter { count := some 5 }) }
      ([{ name := some [0x6C], unknownFields := [(0x28, .varint 7)] },
        { metric := some (.summary { mean := some 0x4000000000000000, count := some 300 }) }].flatMap
          (MetricProto.schema base128).internalSerialize) =
    some {
      name := some [0x6C]
      metric := some (.summary { mean := some 0x4000000000000000, count := some 300 })
      unknownFields := [(0x28, .varint 7)] } := by
  refine serialized_metrics_merge base128_lawful _ _ ?_ (by decide)
  have other : (MetricProto.schema base128).Foreign (0x28, .varint 7) :=
    ⟨⟨[7], [], rfl⟩, by decide, by decide⟩
  simp only [List.forall_mem_cons]
  refine ⟨⟨fun u member => ?_, fun set => ?_⟩, ⟨.of_nil rfl, fun set => ?_⟩, by simp⟩
  · rw [List.mem_singleton.mp member]
    exact other
  · cases set
  · cases set
    exact .of_nil rfl

/-- Whatever bytes are read as a message, fields that repeat, stand in any order or are unknown, and
messages in pieces among them: the message is written to bytes that are read as the same. -/
theorem read_messages_again (runtime : R.Lawful) (bs : Bytes) :
    (∀ m, (RemoteObjectProto.schema R).mergeFromString {} bs = some m →
      (RemoteObjectProto.schema R).byteSizeLong m ≤ R.maxSize →
        (RemoteObjectProto.schema R).mergeFromString {} ((RemoteObjectProto.schema R).internalSerialize m) = some m) ∧
    ∀ m, (MetricProto.schema R).mergeFromString {} bs = some m → (MetricProto.schema R).byteSizeLong m ≤ R.maxSize →
      (MetricProto.schema R).mergeFromString {} ((MetricProto.schema R).internalSerialize m) = some m := by
  have object := RemoteObjectProto.lawful runtime
  have metric := MetricProto.lawful runtime
  constructor
  · intro m read small
    rw [← object.length_serialized runtime] at small
    exact object.reads_again runtime (fun m => (RemoteObjectProto.mergeFrom_eq _ m).trans m.empty_mergeImpl) (.of_nil rfl)
      read small
  · intro m read small
    rw [← metric.length_serialized runtime] at small
    exact metric.reads_again runtime (fun m => (MetricProto.mergeFrom_eq _ m).trans m.empty_mergeImpl) MetricProto.blank
      read small

/-- A root pointer's address, written twice, the second time in more bytes than it needs. -/
def twice : Bytes := [0x10, 0x05, 0x08, 0x07, 0x10, 0xAC, 0x82, 0x00]

theorem read_messages_again_twice :
    (RemoteObjectProto.schema base128).mergeFromString {} ((RemoteObjectProto.schema base128).internalSerialize
      { raddr := some 300, unknownFields := [(0x08, .varint 7)] }) =
        some { raddr := some 300, unknownFields := [(0x08, .varint 7)] } :=
  (read_messages_again base128_lawful twice).1 _ rfl (by decide)

end RdmaIht.Proto
