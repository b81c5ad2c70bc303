import NgxPlus.Luashm.Invented

/-!
# Recovery into a dictionary that holds entries

The zone outlives a reload, and `ngx_proc_luashm_backup_process_init` runs again (`:503-572`).
`ngx_proc_luashm_backup_recover` (`:299-385`) has the comment of `ngx_http_lua_shdict_set_helper`
for what a lookup did not find (`:342`), but no lookup: a record whose key is there becomes a
second node of that key.

`recovery_keeps_iff` says that the keys stay unique and the entries stay what they were exactly
where no record has a key of the dictionary, or of another record. `taken_backup` says which
records those of a backup are.
-/

namespace NgxPlus.Luashm

open ByteMem Mqtt Decode

/-- The entries of the records that live. -/
def taken (now : Nat) (exts : List ExtNode) : List Entry :=
  (exts.filter fun ext => lives ext.expires now).map ExtNode.entry

/-- `recoverIf` for one record after the other. -/
def recoverAll (now : Nat) (alloc : Nat → Nat → Bool) (exts : List ExtNode) (d : Dict) : Except Fault Dict :=
  exts.foldlM (fun d ext => recoverIf now (alloc d.zone.next) d ext) d

/-- No length is negative as an `int`. -/
def Readable (now : Nat) (exts : List ExtNode) : Prop :=
  ∀ ext ∈ exts, lives ext.expires now = true → ext.valueLen < 2 ^ 31

/-- Keys that are not in the dictionary, each once. -/
structure NewKeys (now : Nat) (exts : List ExtNode) (d : Dict) : Prop where
  nodup : ((taken now exts).map Entry.key).Nodup
  new : ∀ e ∈ taken now exts, ∀ x ∈ d.entries, x.key ≠ e.key

/-- The memory for each record is there at the first attempt. -/
def Roomy (now : Nat) (alloc : Nat → Nat → Bool) (exts : List ExtNode) : Prop :=
  ∀ ext ∈ exts, lives ext.expires now = true → ∀ i, slabAlloc (alloc i) 0 ext.allocSize = true

/-- The size of each node is an `int`. -/
def Sized (exts : List ExtNode) : Prop := ∀ ext ∈ exts, nodeHeader + ext.keyLen + ext.valueLen < 2 ^ 31

theorem Sized.readable {exts : List ExtNode} (h : Sized exts) (now : Nat) : Readable now exts := by
  intro ext hext _
  have := h ext hext
  omega

theorem Sized.roomy {exts : List ExtNode} (h : Sized exts) (now : Nat) {alloc : Nat → Nat → Bool}
    (hmem : ∀ i j, alloc i j = true) : Roomy now alloc exts := by
  intro ext hext _ i
  have := h ext hext
  have hn : 0 ≤ ext.allocSize := by
    simp only [ExtNode.allocSize, int32]
    omega
  rw [slabAlloc, hmem, Bool.and_true]
  exact decide_eq_true hn

/-- The keys of the entries are those of the nodes. -/
theorem Dict.Sound.unique_iff {d : Dict} (h : d.Sound) : d.zone.Unique ↔ (d.entries.map Entry.key).Nodup := by
  have hmap : d.entries.map Entry.key = d.zone.lruQueue.map NodeKey.key := by
    rw [Dict.entries, List.map_map]
    exact List.map_congr_left fun k hk => h.key k hk
  rw [hmap, List.nodup_map_iff_inj_on h.wf.queueNodup]
  constructor
  · exact fun hu a ha b hb hab => hu a ((h.wf.same a).1 ha) b ((h.wf.same b).1 hb) hab
  · exact fun hi a ha b hb hab => hi a ((h.wf.same a).2 ha) b ((h.wf.same b).2 hb) hab

section Take

variable {now : Nat} {ext : ExtNode} (exts : List ExtNode)

theorem taken_of_lives (h : lives ext.expires now = true) : taken now (ext :: exts) = ext.entry :: taken now exts := by
  rw [taken, List.filter_cons, if_pos h]
  rfl

theorem taken_of_not_lives (h : ¬ lives ext.expires now = true) : taken now (ext :: exts) = taken now exts := by
  rw [taken, List.filter_cons, if_neg h]
  rfl

end Take

/-! ## With whatever memory -/

/-- Where the keys are new, they stay unique, and there is nothing but the entries of before and
those of the records. -/
theorem recoverAll_new (now : Nat) (alloc : Nat → Nat → Bool) {exts : List ExtNode} {d : Dict} (hd : d.Sound)
    (hnodup : (d.entries.map Entry.key).Nodup) (hread : Readable now exts) (hnew : NewKeys now exts d) :
    ∃ r, recoverAll now alloc exts d = .ok r ∧ r.Sound ∧ (r.entries.map Entry.key).Nodup ∧
      ∀ y ∈ r.entries, y ∈ d.entries ∨ y ∈ taken now exts := by
  induction exts generalizing d with
  | nil => exact ⟨d, rfl, hd, hnodup, fun y hy => Or.inl hy⟩
  | cons ext exts ih =>
    have hread' : Readable now exts := fun x hx => hread x (List.mem_cons_of_mem _ hx)
    rw [recoverAll, List.foldlM_cons, recoverIf]
    by_cases hl : lives ext.expires now = true
    · obtain ⟨d', hr, hs, es, hsub, hent⟩ :=
        recover_spec hd (hread ext List.mem_cons_self hl) now (alloc d.zone.next)
      have htaken := taken_of_lives exts hl
      obtain ⟨hn, hx⟩ := hnew
      rw [htaken] at hn hx
      obtain ⟨hout, hn⟩ := List.nodup_cons.1 hn
      have hes : (es.map Entry.key).Nodup := (hsub.map _).nodup hnodup
      have hkeep : ∀ y ∈ d'.entries, y ∈ d.entries ∨ y = ext.entry := by
        intro y hy
        rcases hent with hent | hent <;> rw [hent] at hy
        · exact Or.inl (hsub.subset hy)
        · rcases List.mem_cons.1 hy with rfl | hy
          · exact Or.inr rfl
          · exact Or.inl (hsub.subset hy)
      have hnodup' : (d'.entries.map Entry.key).Nodup := by
        rcases hent with hent | hent <;> rw [hent]
        · exact hes
        · refine List.nodup_cons.2 ⟨fun hmem => ?_, hes⟩
          obtain ⟨x, hxe, hk⟩ := List.mem_map.1 hmem
          exact hx _ List.mem_cons_self x (hsub.subset hxe) hk
      have hnew' : NewKeys now exts d' := by
        refine ⟨hn, fun e he x hxe hk => ?_⟩
        rcases hkeep x hxe with hxd | rfl
        · exact hx e (List.mem_cons_of_mem _ he) x hxd hk
        · exact hout (List.mem_map.2 ⟨e, he, hk.symm⟩)
      obtain ⟨r, hrest, hsr, hnr, hfrom⟩ := ih hs hnodup' hread' hnew'
      refine ⟨r, ?_, hsr, hnr, fun y hy => ?_⟩
      · rw [if_pos hl, hr]
        exact hrest
      · rw [htaken]
        rcases hfrom y hy with hy | hy
        · rcases hkeep y hy with hy | rfl
          · exact Or.inl hy
          · exact Or.inr List.mem_cons_self
        · exact Or.inr (List.mem_cons_of_mem _ hy)
    · have htaken := taken_of_not_lives exts hl
      obtain ⟨r, hrest, h⟩ := ih hd hnodup hread' ⟨htaken ▸ hnew.nodup, htaken ▸ hnew.new⟩
      refine ⟨r, ?_, htaken ▸ h⟩
      rw [if_neg hl]
      exact hrest

/-! ## With enough memory -/

section Enough

variable {now : Nat} {alloc : Nat → Nat → Bool} {exts : List ExtNode} (hroom : Roomy now alloc exts)
include hroom

/-- Every record that lives becomes an entry, whatever its key. -/
theorem recoverAll_roomy {d : Dict} (hd : d.Sound) (hread : Readable now exts) :
    ∃ r, recoverAll now alloc exts d = .ok r ∧ r.Sound ∧ r.entries = (taken now exts).reverse ++ d.entries := by
  induction exts generalizing d with
  | nil => exact ⟨d, rfl, hd, rfl⟩
  | cons ext exts ih =>
    have hroom' : Roomy now alloc exts := fun x hx => hroom x (List.mem_cons_of_mem _ hx)
    have hread' : Readable now exts := fun x hx => hread x (List.mem_cons_of_mem _ hx)
    rw [recoverAll, List.foldlM_cons, recoverIf]
    by_cases hl : lives ext.expires now = true
    · obtain ⟨d', hr, hs, hent⟩ := recover_roomy hd (hread ext List.mem_cons_self hl) now (alloc d.zone.next)
        (hroom ext List.mem_cons_self hl d.zone.next)
      obtain ⟨r, hrest, hsr, hentr⟩ := ih hroom' hs hread'
      refine ⟨r, ?_, hsr, ?_⟩
      · rw [if_pos hl, hr]
        exact hrest
      · rw [hentr, hent, taken_of_lives exts hl, List.reverse_cons, List.append_assoc, List.singleton_append]
    · obtain ⟨r, hrest, hsr, hentr⟩ := ih hroom' hd hread'
      refine ⟨r, ?_, hsr, by rw [hentr, taken_of_not_lives exts hl]⟩
      rw [if_neg hl]
      exact hrest

/-- A length that is negative ends the process. -/
theorem readable_of_ok {d r : Dict} (hlen : ∀ ext ∈ exts, ext.valueLen < 2 ^ 32)
    (h : recoverAll now alloc exts d = .ok r) : Readable now exts := by
  induction exts generalizing d with
  | nil => exact fun _ hx => absurd hx List.not_mem_nil
  | cons ext exts ih =>
    rw [recoverAll, List.foldlM_cons, bind_eq_ok] at h
    obtain ⟨d', hd', h⟩ := h
    have hrest := ih (fun x hx => hroom x (List.mem_cons_of_mem _ hx))
      (fun x hx => hlen x (List.mem_cons_of_mem _ hx)) h
    intro x hx hl
    rcases List.mem_cons.1 hx with rfl | hx
    · rw [recoverIf, if_pos hl, recover, allocNode, if_pos (hroom x List.mem_cons_self hl _), recoverNode,
        if_pos rfl] at hd'
      by_contra hbig
      have := hlen x List.mem_cons_self
      rw [if_pos (by rw [int32]; omega)] at hd'
      cases hd'
    · exact hrest x hx hl

end Enough

theorem records_valueLen {fuel left : Nat} {m : Mem} : ∀ ext ∈ records fuel m left, ext.valueLen < 2 ^ 32 := by
  induction fuel generalizing m left with
  | zero => exact fun _ hx => absurd hx List.not_mem_nil
  | succ fuel ih =>
    rw [records]
    split
    · intro x hx
      rcases List.mem_cons.1 hx with rfl | hx
      · exact le_lt 4 _
      · exact ih x hx
    · exact fun _ hx => absurd hx List.not_mem_nil

/-- Every key in one node of the tree, and what lived at `now` as it was. -/
structure Intact (now : Nat) (d r : Dict) : Prop where
  unique : r.zone.Unique
  stays : ∀ x ∈ d.entries, x.expires = 0 ∨ now < x.expires → x ∈ r.entries

theorem newKeys_iff {now : Nat} {exts : List ExtNode} {d : Dict} (hnodup : (d.entries.map Entry.key).Nodup) :
    (((taken now exts).reverse ++ d.entries).map Entry.key).Nodup ↔ NewKeys now exts d := by
  rw [List.map_append, List.map_reverse, List.nodup_append]
  simp only [List.nodup_reverse, List.mem_reverse, List.mem_map, forall_exists_index, and_imp,
    forall_apply_eq_imp_iff₂]
  constructor
  · exact fun ⟨h, _, hne⟩ => ⟨h, fun e he x hx hk => hne e he x hx hk.symm⟩
  · exact fun ⟨h, hne⟩ => ⟨h, hnodup, fun e he x hx hk => hne e he x hx hk.symm⟩

section Exactly

variable {d : Dict} (hd : d.Sound) (hu : d.zone.Unique) (readMax size : Nat) (mem : Mem) (file : Bytes) (now : Nat)
include hd hu

/-- No older value comes over a newer one, also where nodes are evicted for the memory. -/
theorem recovery_no_undo (alloc : Nat → Nat → Bool) (hread : Readable now (fileRecords readMax size mem file))
    (hnew : NewKeys now (fileRecords readMax size mem file) d) :
    ∃ r, processInit readMax size mem file now alloc d = .ok r ∧ r.zone.Unique ∧
      ∀ x ∈ d.entries, ∀ y ∈ r.entries, y.key = x.key → y = x := by
  have hnodup := hd.unique_iff.1 hu
  obtain ⟨r, hr, hs, hn, hfrom⟩ := recoverAll_new now alloc hd hnodup hread hnew
  refine ⟨r, (processInit_eq ..).trans hr, hs.unique_iff.2 hn, fun x hx y hy hk => ?_⟩
  rcases hfrom y hy with hy | hy
  · exact List.inj_on_of_nodup_map hnodup hy hx hk
  · exact absurd hk.symm (hnew.new y hy x hx)

theorem recovery_intact_iff {alloc : Nat → Nat → Bool} (hroom : Roomy now alloc (fileRecords readMax size mem file)) :
    (∃ r, processInit readMax size mem file now alloc d = .ok r ∧ Intact now d r) ↔
      Readable now (fileRecords readMax size mem file) ∧ NewKeys now (fileRecords readMax size mem file) d := by
  have hnodup := hd.unique_iff.1 hu
  rw [processInit_eq]
  constructor
  · rintro ⟨r, hr, hi⟩
    have hread := readable_of_ok hroom records_valueLen hr
    obtain ⟨r', hr', hs, hent⟩ := recoverAll_roomy hroom hd hread
    obtain rfl := Except.ok.inj (hr.symm.trans hr')
    have hn := hs.unique_iff.1 hi.unique
    rw [hent] at hn
    exact ⟨hread, (newKeys_iff hnodup).1 hn⟩
  · rintro ⟨hread, hnew⟩
    obtain ⟨r, hr, hs, hent⟩ := recoverAll_roomy hroom hd hread
    refine ⟨r, hr, hs.unique_iff.2 ?_, fun x hx _ => ?_⟩
    · rw [hent]
      exact (newKeys_iff hnodup).2 hnew
    · rw [hent]
      exact List.mem_append_right _ hx

end Exactly

/-! ## The records of a backup -/

theorem taken_slots {mem : Mem} {slots : List Slot} (hfits : ∀ r ∈ slots, EntryFits r.entry)
    (hw : ∀ r ∈ slots, r.Written mem) (hb : ∀ r ∈ slots, Backed r.entry) (now : Nat) (m : Mem) {fuel : Nat}
    (hfuel : (slots.flatMap Slot.bytes).length ≤ fuel) :
    taken now (records fuel (slots.flatMap Slot.bytes ++ₛ m) (slots.flatMap Slot.bytes).length) =
        (slots.map (·.entry)).filter (fun e => lives e.expires now) ∧
      Sized (records fuel (slots.flatMap Slot.bytes ++ₛ m) (slots.flatMap Slot.bytes).length) := by
  induction slots generalizing fuel with
  | nil =>
    have hnil : records fuel (([] : List Slot).flatMap Slot.bytes ++ₛ m) 0 = [] := by
      cases fuel with
      | zero => rfl
      | succ fuel => rfl
    rw [List.flatMap_nil, List.length_nil] at *
    rw [hnil]
    exact ⟨rfl, fun _ hx => absurd hx List.not_mem_nil⟩
  | cons r slots ih =>
    have hr := hfits r List.mem_cons_self
    have hval := (hw r List.mem_cons_self).1 (hb r List.mem_cons_self)
    have hlen := r.length_bytes
    rw [sizeofExt] at hlen
    rw [List.flatMap_cons, List.length_append] at hfuel
    obtain ⟨fuel, rfl⟩ : ∃ k, fuel = k + 1 := ⟨fuel - 1, by omega⟩
    have hwhole : (r.bytes ++ slots.flatMap Slot.bytes).take (r.bytes ++ slots.flatMap Slot.bytes).length =
        r.bytes ++ slots.flatMap Slot.bytes := List.take_length
    have hk : 24 + r.entry.key.length + r.entry.value.length ≤ (r.bytes ++ slots.flatMap Slot.bytes).length := by
      rw [List.length_append]
      omega
    have hread := read_slot hr (slots.flatMap Slot.bytes) m
      (show 24 ≤ (r.bytes ++ slots.flatMap Slot.bytes).length by omega)
    have hentry := read_slot_entry hr (slots.flatMap Slot.bytes) m hk hval
    rw [hwhole] at hread hentry
    generalize hext : ExtNode.read (r.bytes ++ slots.flatMap Slot.bytes ++ₛ m) = ext at hread hentry
    have hstride : ext.stride = r.bytes.length := by
      rw [hread, ExtNode.stride, hval, r.length_bytes]
    have hexp : ext.expires = r.entry.expires := by rw [hread]
    have hsize : nodeHeader + ext.keyLen + ext.valueLen < 2 ^ 31 := by
      rw [hread]
      simpa only [hval] using hr.size (hb r List.mem_cons_self)
    obtain ⟨ht, hsized⟩ := ih (fun x hx => hfits x (List.mem_cons_of_mem _ hx))
      (fun x hx => hw x (List.mem_cons_of_mem _ hx)) (fun x hx => hb x (List.mem_cons_of_mem _ hx))
      (show _ ≤ fuel by omega)
    have hrec : records (fuel + 1) ((r :: slots).flatMap Slot.bytes ++ₛ m) ((r :: slots).flatMap Slot.bytes).length =
        ext :: records fuel (slots.flatMap Slot.bytes ++ₛ m) (slots.flatMap Slot.bytes).length := by
      rw [List.flatMap_cons, records, if_pos (by rw [List.length_append]; omega), hext, hstride,
        Stream'.append_append_stream, drop_append_of_eq _ _ rfl, List.length_append, Nat.add_sub_cancel_left]
    rw [hrec, List.map_cons, List.filter_cons, ← hexp]
    refine ⟨?_, List.forall_mem_cons.2 ⟨hsize, hsized⟩⟩
    by_cases hl : lives ext.expires now = true
    · rw [taken_of_lives _ hl, if_pos hl, hentry, ht]
    · rw [taken_of_not_lives _ hl, if_neg hl, ht]

section Backup

variable {d' : Dict} (hfits : ∀ e ∈ d'.entries, EntryFits e) (hne : d'.entries ≠ []) {readMax size t₁ : Nat}
  (hb : ∀ e ∈ d'.entries, lives e.expires t₁ = true → Backed e) (hlt : serialisedSize d' t₁ < 2 ^ 32)
  (hread : serialisedSize d' t₁ ≤ readMax) (hsize : serialisedSize d' t₁ ≤ size) (t₂ : Nat) (mem mem' : Mem)
  (old : Bytes)
include hfits hne hb hlt hread hsize

/-- The records of a backup are the entries that lived then. -/
theorem taken_backup :
    taken t₂ (fileRecords readMax size mem' (backup mem t₁ d' old)) =
        ((d'.entries.filter fun e => lives e.expires t₁).reverse).filter (fun e => lives e.expires t₂) ∧
      Sized (fileRecords readMax size mem' (backup mem t₁ d' old)) := by
  obtain ⟨slots, hslots, hw, hlen, hfile⟩ := backup_slots hfits hne mem t₁ old
  have hmem : ∀ r ∈ slots, r.entry ∈ d'.entries ∧ lives r.entry.expires t₁ = true := by
    intro r hr
    have he : r.entry ∈ slots.map (·.entry) := List.mem_map_of_mem hr
    rwa [hslots, List.mem_reverse, List.mem_filter] at he
  rw [Nat.mod_eq_of_lt hlt] at hfile
  rw [← hslots]
  by_cases h4 : serialisedSize d' t₁ > 4
  · rw [if_pos h4] at hfile
    have hwhole : serialisedSize d' t₁ - 4 = (slots.flatMap Slot.bytes).length := by omega
    rw [hfile, fileRecords, start_whole mem' _ hlt h4 (by omega) hsize hread, hwhole, List.take_length]
    exact taken_slots (fun r hr => hfits _ (hmem r hr).1) hw (fun r hr => hb _ (hmem r hr).1 (hmem r hr).2) t₂ _ le_rfl
  · have hnil : slots = [] := by
      cases slots with
      | nil => rfl
      | cons r slots =>
        rw [List.flatMap_cons, List.length_append, r.length_bytes, sizeofExt] at hlen
        omega
    have hshort : min (backup mem t₁ d' old).length (min size readMax) ≤ 4 := by
      have : (backup mem t₁ d' old).length ≤ serialisedSize d' t₁ := by
        rw [hfile]
        exact List.length_take_le ..
      omega
    rw [hnil, fileRecords, start_short mem' hshort]
    exact ⟨rfl, fun _ hx => absurd hx List.not_mem_nil⟩

end Backup

/-! ## Exactly where the keys are new -/

/-- **Keys stay unique and entries what they were exactly where no record has a key that is there.**
Memory that runs out costs entries, but brings back no older value. -/
theorem recovery_keeps_iff {d : Dict} (hd : d.Sound) (hu : d.zone.Unique) (readMax size : Nat) (mem : Mem)
    (file : Bytes) (now : Nat) :
    (∀ alloc, Roomy now alloc (fileRecords readMax size mem file) →
      ((∃ r, processInit readMax size mem file now alloc d = .ok r ∧ Intact now d r) ↔
        Readable now (fileRecords readMax size mem file) ∧ NewKeys now (fileRecords readMax size mem file) d)) ∧
    ∀ alloc, Readable now (fileRecords readMax size mem file) → NewKeys now (fileRecords readMax size mem file) d →
      ∃ r, processInit readMax size mem file now alloc d = .ok r ∧ r.zone.Unique ∧
        ∀ x ∈ d.entries, ∀ y ∈ r.entries, y.key = x.key → y = x :=
  ⟨fun _ hroom => recovery_intact_iff hd hu readMax size mem file now hroom,
    fun alloc hread hnew => recovery_no_undo hd hu readMax size mem file now alloc hread hnew⟩

/-- A dictionary of one string. -/
def single (key value : UInt8) : Dict := ofEntries [⟨[key], [value], luaTString, 0, 0⟩]

theorem single_spec (key value : UInt8) :
    (single key value).Ok ∧ (single key value).entries = [⟨[key], [value], luaTString, 0, 0⟩] := by
  have hok : EntryOk ⟨[key], [value], luaTString, 0, 0⟩ :=
    ⟨by simp, Or.inl rfl, by simp [nodeHeader], by simp, by simp⟩
  exact ofEntries_spec (List.forall_mem_singleton.2 hok) (List.nodup_singleton _) (List.forall_mem_singleton.2 rfl)

theorem single_fits (key value : UInt8) : ∀ e ∈ (single key value).entries, EntryFits e := by
  rw [(single_spec key value).2, List.forall_mem_singleton]
  exact ⟨by simp, by simp [luaTString], by simp [luaTString, luaTNumber], by simp, by simp, by simp [nodeHeader],
    by simp, by simp⟩

theorem serialisedSize_single (key value : UInt8) : serialisedSize (single key value) 0 = 38 := by
  rw [serialisedSize, (single_spec key value).2]
  rfl

/-- The records of its backup. -/
theorem taken_single (key value : UInt8) :
    taken 0 (fileRecords 0x7ffff000 131072 ones (backup ones 0 (single key value) [])) =
        [⟨[key], [value], luaTString, 0, 0⟩] ∧
      Sized (fileRecords 0x7ffff000 131072 ones (backup ones 0 (single key value) [])) := by
  have hent := (single_spec key value).2
  have hsize := serialisedSize_single key value
  have hne : (single key value).entries ≠ [] := by
    rw [hent]
    simp
  have hb : ∀ e ∈ (single key value).entries, lives e.expires 0 = true → Backed e := by
    rw [hent, List.forall_mem_singleton]
    exact fun _ => Or.inl rfl
  have hread : serialisedSize (single key value) 0 ≤ 0x7ffff000 := by omega
  have hfit : serialisedSize (single key value) 0 ≤ 131072 := by omega
  obtain ⟨ht, hs⟩ := taken_backup (single_fits key value) hne hb (by omega) hread hfit 0 ones ones []
  rw [hent] at ht
  exact ⟨ht, hs⟩

theorem recovery_keeps_other :
    ∃ r, processInit 0x7ffff000 131072 ones (backup ones 0 (single 0x62 1) []) 0 (fun _ _ => true) (single 0x61 2) =
        .ok r ∧ Intact 0 (single 0x61 2) r := by
  obtain ⟨hok, hent⟩ := single_spec 0x61 2
  obtain ⟨ht, hs⟩ := taken_single 0x62 1
  refine ((recovery_keeps_iff ⟨hok.zone.wf, hok.key⟩ hok.zone.unique _ _ _ _ _).1 _
    (hs.roomy 0 fun _ _ => rfl)).2 ⟨hs.readable 0, ?_, ?_⟩
  · rw [ht]
    decide
  · rw [ht, hent]
    decide

/-- The older value of a key lies in front of the newer one. -/
theorem older_value_back :
    (single 0x61 2).zone.Unique ∧
      ∃ r, processInit 0x7ffff000 131072 ones (backup ones 0 (single 0x61 1) []) 0 (fun _ _ => true) (single 0x61 2) =
        .ok r ∧ ¬ r.zone.Unique ∧
        r.entries = [⟨[0x61], [1], luaTString, 0, 0⟩, ⟨[0x61], [2], luaTString, 0, 0⟩] := by
  obtain ⟨hok, hent⟩ := single_spec 0x61 2
  obtain ⟨ht, hs⟩ := taken_single 0x61 1
  have halloc : ∀ i j : Nat, (fun _ _ => true : Nat → Nat → Bool) i j = true := fun _ _ => rfl
  obtain ⟨r, hr, hsound, hentr⟩ := recoverAll_roomy (hs.roomy 0 halloc) ⟨hok.zone.wf, hok.key⟩ (hs.readable 0)
  rw [ht, hent] at hentr
  refine ⟨hok.zone.unique, r, (processInit_eq ..).trans hr, fun hu => ?_, hentr⟩
  have hn := hsound.unique_iff.1 hu
  rw [hentr] at hn
  exact absurd hn (by decide)

end NgxPlus.Luashm
