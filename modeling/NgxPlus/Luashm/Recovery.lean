import NgxPlus.Luashm.Backup

/-!
# What a record does to a dictionary

`ngx_proc_luashm_backup_recover` (`:299-385`) with whatever memory: the evictions take nodes off
the queue (`Evicts`), and then the record is a new node or nothing (`recover_spec`). Nothing is
looked up. The dictionary may hold anything before.
-/

namespace NgxPlus.Luashm

open ByteMem Mqtt Decode

/-- A zone whose nodes hold their own keys. -/
structure Dict.Sound (d : Dict) : Prop where
  wf : d.zone.WF
  key : ∀ k ∈ d.zone.lruQueue, (d.entry k).key = k.key

theorem Dict.sound_init (heap : NodeKey → ShdictNode) (kinds : NodeKey → Kind) : (Dict.init heap kinds).Sound :=
  ⟨(inv_init heap).wf, fun _ hk => absurd hk List.not_mem_nil⟩

/-! ## Evictions -/

/-- The entries are those of before, less some. -/
theorem Evicts.entries {d : Dict} {z : Shzone} (h : Evicts d.zone z) :
    (Dict.mk z d.kinds).entries.Sublist d.entries := by
  have hentry : (Dict.mk z d.kinds).entry = d.entry := by
    funext k
    simp only [Dict.entry, h.heap]
  rw [Dict.entries, hentry]
  exact h.queue.map d.entry

theorem Evicts.sound {d : Dict} {z : Shzone} (h : Evicts d.zone z) (hd : d.Sound) : (Dict.mk z d.kinds).Sound where
  wf := h.wf hd.wf
  key k hk := by
    rw [← hd.key k (h.queue.subset hk)]
    simp only [Dict.entry, h.heap]

/-! ## A new node -/

/-- The entry that a record is for. -/
def ExtNode.entry (ext : ExtNode) : Entry :=
  ⟨ext.data.take ext.keyLen, (ext.data.drop ext.keyLen).take ext.valueLen, ext.valueType, ext.userFlags, ext.expires⟩

/-- The node that it becomes in memory that held `old`. -/
def ExtNode.node (ext : ExtNode) (old : Mem) : ShdictNode :=
  ⟨ext.keyLen, ext.valueLen, ext.expires, ext.entry.key ++ ext.entry.value ++ₛ old.drop (ext.keyLen + ext.valueLen),
    ext.allocSize - nodeHeader⟩

@[simp] theorem ExtNode.length_entry_key (ext : ExtNode) : ext.entry.key.length = ext.keyLen := Stream'.length_take ..

@[simp] theorem ExtNode.length_entry_value (ext : ExtNode) : ext.entry.value.length = ext.valueLen :=
  Stream'.length_take ..

theorem ExtNode.node_key (ext : ExtNode) (old : Mem) :
    (ext.node old).data.take (ext.node old).keyLen = ext.entry.key := by
  simp only [node, Stream'.append_append_stream]
  exact take_append_of_eq _ _ ext.length_entry_key

theorem ExtNode.node_value (ext : ExtNode) (old : Mem) : (ext.node old).value = ext.entry.value := by
  simp only [node, ShdictNode.value, Stream'.append_append_stream]
  rw [drop_append_of_eq _ _ ext.length_entry_key, take_append_of_eq _ _ ext.length_entry_value]

theorem Dict.Sound.insert {d : Dict} (h : d.Sound) (key : Bytes) (sd : ShdictNode) (kind : Kind)
    (hkey : sd.data.take sd.keyLen = key) : (d.insert key sd kind).Sound where
  wf := h.wf.insert key sd
  key k hk := by
    rcases List.mem_cons.1 hk with rfl | hk
    · rw [Dict.insert_entry_self, NodeKey.key_mk]
      exact hkey
    · rw [Dict.insert_entry_of_mem key sd kind h.wf hk]
      exact h.key k hk

/-! ## A record -/

section Record

variable {d : Dict} (hd : d.Sound) {ext : ExtNode} (hlen : ext.valueLen < 2 ^ 31) (now : Nat) (alloc : Nat → Bool)
include hd hlen

theorem recoverNode_spec {z : Shzone} (hz : Evicts d.zone z) :
    ∃ d', recoverNode d ext (z, true) = .ok d' ∧ d'.Sound ∧ d'.entries = ext.entry :: (Dict.mk z d.kinds).entries := by
  have hpos : ¬ int32 ext.valueLen < 0 := by
    rw [int32]
    omega
  have hz' := hz.sound hd
  let old := (z.heap (.mk (ngxCrc32Short ext.entry.key) ext.entry.key z.next)).data
  refine ⟨(Dict.mk z d.kinds).insert ext.entry.key (ext.node old) ⟨ext.valueType, ext.userFlags⟩, ?_,
    hz'.insert _ _ _ (ext.node_key old), ?_⟩
  · rw [recoverNode, if_pos rfl, if_neg hpos]
    rfl
  · rw [Dict.entries_insert _ _ _ hz'.wf, ext.node_key, ext.node_value]
    rfl

/-- A node more, whatever is there already, or none where there is no memory. -/
theorem recover_spec :
    ∃ d', recover now alloc d ext = .ok d' ∧ d'.Sound ∧
      ∃ es, es.Sublist d.entries ∧ (d'.entries = es ∨ d'.entries = ext.entry :: es) := by
  have hz := evicts_allocNode now alloc ext.allocSize d.zone
  rw [recover]
  cases hr : allocNode now alloc ext.allocSize d.zone with
  | mk z found =>
    rw [hr] at hz
    cases found with
    | true =>
      obtain ⟨d', h, hs, hent⟩ := recoverNode_spec hd hlen hz
      exact ⟨d', h, hs, _, hz.entries, Or.inr hent⟩
    | false => exact ⟨⟨z, d.kinds⟩, rfl, hz.sound hd, _, hz.entries, Or.inl rfl⟩

/-- Where memory is given at once, nothing is evicted. -/
theorem recover_roomy (hroom : slabAlloc alloc 0 ext.allocSize = true) :
    ∃ d', recover now alloc d ext = .ok d' ∧ d'.Sound ∧ d'.entries = ext.entry :: d.entries := by
  rw [recover, allocNode, if_pos hroom]
  exact recoverNode_spec hd hlen (.refl _)

end Record

/-! ## A file -/

/-- `buff->pos` and `buff->last - buff->pos` before the loop of `ngx_proc_luashm_backup_process_init`. -/
def start (readMax size : Nat) (mem : Mem) (file : Bytes) : Mem × Nat :=
  let n := min file.length (min size readMax)
  let buff := file.take n ++ₛ mem.drop n
  let contentSize := le 4 buff
  let last := if contentSize = n then n else if contentSize > n then 0 else contentSize
  (buff.drop 4, if 0 < n then last - 4 else 0)

def reader (readMax size : Nat) (mem : Mem) (file : Bytes) (d : Dict) : Reader :=
  ⟨d, (start readMax size mem file).1, (start readMax size mem file).2⟩

/-- The rounds of `processInit` are enough. -/
theorem processInit_reader (readMax size : Nat) (mem : Mem) (file : Bytes) (now : Nat) (alloc : Nat → Nat → Bool)
    (d : Dict) :
    ∃ fuel, (reader readMax size mem file d).left ≤ fuel ∧ processInit readMax size mem file now alloc d =
      (loop more (round now alloc) fuel (reader readMax size mem file d) >>= fun s => .ok s.dict) := by
  simp only [reader, start, processInit]
  by_cases h0 : 0 < min file.length (min size readMax)
  · simp only [if_pos h0]
    exact ⟨_, Nat.sub_le _ 4, rfl⟩
  · simp only [if_neg h0]
    exact ⟨0, le_rfl, rfl⟩

/-- The records in the next `left` bytes. -/
def records : Nat → Mem → Nat → List ExtNode
  | 0, _, _ => []
  | fuel + 1, m, left =>
    if 0 < left then
      ExtNode.read m :: records fuel (m.drop (ExtNode.read m).stride) (left - (ExtNode.read m).stride)
    else []

/-- The loop takes the records one after the other. -/
theorem loop_records (now : Nat) (alloc : Nat → Nat → Bool) {fuel fuel' : Nat} {s : Reader} (h : s.left ≤ fuel)
    (h' : s.left ≤ fuel') :
    (loop more (round now alloc) fuel s >>= fun s => .ok s.dict) =
      (records fuel' s.rest s.left).foldlM (fun d ext => recoverIf now (alloc d.zone.next) d ext) s.dict := by
  induction fuel generalizing fuel' s with
  | zero =>
    have h0 : s.left = 0 := Nat.le_zero.1 h
    cases fuel' with
    | zero => rfl
    | succ fuel' =>
      rw [records, if_neg (by omega)]
      rfl
  | succ fuel ih =>
    by_cases h0 : 0 < s.left
    · obtain ⟨fuel', rfl⟩ : ∃ k, fuel' = k + 1 := ⟨fuel' - 1, by omega⟩
      have hstride : 0 < (ExtNode.read s.rest).stride := by
        rw [ExtNode.stride, sizeofExt]
        omega
      rw [loop_more (by simpa only [more, decide_eq_true_eq] using h0), records, if_pos h0, List.foldlM_cons, round]
      cases hr : recoverIf now (alloc s.dict.zone.next) s.dict (ExtNode.read s.rest) with
      | error e => rfl
      | ok d => exact ih (by simp only; omega) (by simp only; omega)
    · rw [loop_stop (by simpa only [more, decide_eq_false_iff_not] using h0)]
      cases fuel' with
      | zero => rfl
      | succ fuel' =>
        rw [records, if_neg h0]
        rfl

/-- The records of a file. -/
def fileRecords (readMax size : Nat) (mem : Mem) (file : Bytes) : List ExtNode :=
  let s := start readMax size mem file
  records s.2 s.1 s.2

theorem processInit_eq (readMax size : Nat) (mem : Mem) (file : Bytes) (now : Nat) (alloc : Nat → Nat → Bool)
    (d : Dict) :
    processInit readMax size mem file now alloc d =
      (fileRecords readMax size mem file).foldlM (fun d ext => recoverIf now (alloc d.zone.next) d ext) d := by
  obtain ⟨fuel, hfuel, h⟩ := processInit_reader readMax size mem file now alloc d
  rw [h, loop_records now alloc hfuel le_rfl]
  rfl

end NgxPlus.Luashm
