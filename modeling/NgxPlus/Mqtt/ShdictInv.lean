import NgxPlus.Lib.Trace
import NgxPlus.Mqtt.Shdict

/-!
# What the dictionaries keep

`Moves z z'` says that `z'` comes from `z` by removing nodes, by moving nodes to the head of the
queue and by leaving the mutex locked: that is all a call does before it writes. Each call is
then one of three things (`Effect`): nothing more, a new node for a key that has none, or a
write over the node of the key.

`keys_stay_unique` and `nodes_never_overflow` follow by one case analysis each. Both are about
calls that write within the memory of the node (`HasRoom`): a longer value runs on into the
node that the slab allocator put behind, and may change its key.
-/

namespace NgxPlus.Mqtt

open ByteMem Rbtree Trace

/-! ## Before the write -/

inductive Moves (z : Shzone) : Shzone → Prop
  | refl : Moves z z
  | remove {z' : Shzone} (h : Moves z z') (k : NodeKey) : Moves z (z'.remove k)
  | touch {z' : Shzone} (h : Moves z z') {k : NodeKey} (hk : k ∈ z'.keys) : Moves z (z'.touch k)
  | leak {z' : Shzone} (h : Moves z z') : Moves z z'.leak

theorem Moves.trans {a b c : Shzone} (hab : Moves a b) (hbc : Moves b c) : Moves a c := by
  induction hbc with
  | refl => exact hab
  | remove _ k ih => exact ih.remove k
  | touch _ hk ih => exact ih.touch hk
  | leak _ ih => exact ih.leak

theorem Moves.inv {P : Shzone → Prop} (hrem : ∀ z k, P z → P (z.remove k))
    (htouch : ∀ z k, k ∈ z.keys → P z → P (z.touch k)) (hleak : ∀ z, P z → P z.leak)
    {z z' : Shzone} (h : Moves z z') (hz : P z) : P z' := by
  induction h with
  | refl => exact hz
  | remove _ k ih => exact hrem _ k ih
  | touch _ hk ih => exact htouch _ _ hk ih
  | leak _ ih => exact hleak _ ih

theorem Moves.heap {z z' : Shzone} (h : Moves z z') : z'.heap = z.heap := by
  induction h with
  | refl => rfl
  | remove _ _ ih => exact ih
  | touch _ _ ih => exact ih
  | leak _ ih => exact ih

theorem keys_remove_sublist (z : Shzone) (k : NodeKey) : (z.remove k).keys.Sublist z.keys :=
  sublist_deleteRoot z.rbtree.ordered k

theorem Moves.keys {z z' : Shzone} (h : Moves z z') : ∀ k ∈ z'.keys, k ∈ z.keys := by
  induction h with
  | refl => exact fun _ hk => hk
  | remove _ k ih => exact fun x hx => ih x ((keys_remove_sublist _ k).subset hx)
  | touch _ _ ih => exact ih
  | leak _ ih => exact ih

theorem moves_expireLoop (now fuel n : Nat) (z : Shzone) (freed : Nat) :
    Moves z (expireLoop now fuel n z freed).1 := by
  induction fuel generalizing n z freed with
  | zero => exact .refl
  | succ fuel ih =>
    rw [expireLoop]
    split
    · exact .refl
    · simp only
      split
      · exact .refl
      · exact (Moves.refl.remove _).trans (ih _ _ _)

theorem moves_expire (z : Shzone) (now n : Nat) : Moves z (ngxHttpLuaShdictExpire z now n).1 :=
  moves_expireLoop now _ n z 0

/-- Memory is only given for a size that is not negative. -/
theorem allocLoop_spec (now : Nat) (alloc : Nat → Bool) (n : Int) (fuel i : Nat) (z : Shzone) :
    Moves z (allocLoop now alloc n fuel i z).1 ∧ ((allocLoop now alloc n fuel i z).2 = true → 0 ≤ n) := by
  induction fuel generalizing i z with
  | zero => exact ⟨.refl, by simp [allocLoop]⟩
  | succ fuel ih =>
    have hexp := moves_expire z now 0
    rw [allocLoop]
    simp only
    split
    · exact ⟨hexp, by simp⟩
    · split
      · rename_i hs
        simp only [slabAlloc, Bool.and_eq_true, decide_eq_true_eq] at hs
        exact ⟨hexp, fun _ => hs.1⟩
      · exact ⟨hexp.trans (ih _ _).1, (ih _ _).2⟩

theorem allocNode_spec (now : Nat) (alloc : Nat → Bool) (n : Int) (flags : Nat) (z : Shzone) :
    Moves z (allocNode now alloc n flags z).1 ∧ ((allocNode now alloc n flags z).2 = true → 0 ≤ n) := by
  unfold allocNode
  split
  · rename_i hs
    simp only [slabAlloc, Bool.and_eq_true, decide_eq_true_eq] at hs
    exact ⟨.refl, fun _ => hs.1⟩
  · split
    · exact ⟨.refl, by simp⟩
    · exact allocLoop_spec now alloc n 30 0 z

/-- What the lookup at the start of a call finds. -/
theorem enter_spec (z : Shzone) (now : Nat) (key : Bytes) :
    Moves z (enter z now key).1 ∧
      match (enter z now key).2 with
      | .ok k | .done k => k ∈ (enter z now key).1.keys ∧ k.key = key
      | .declined => ∀ k ∈ (enter z now key).1.keys, k.pos ≠ toLex (ngxCrc32Short key, key) := by
  have hexp := moves_expire z now 1
  unfold enter ngxHttpLuaShdictLookup
  cases hl : lookupNode (ngxCrc32Short key) key (ngxHttpLuaShdictExpire z now 1).1.rbtree.root with
  | none => exact ⟨hexp, lookupNode_none (ngxHttpLuaShdictExpire z now 1).1.rbtree.ordered hl⟩
  | some k =>
    obtain ⟨hk, -, hkey⟩ := lookupNode_some hl
    simp only
    split
    · exact ⟨hexp.touch hk, hk, hkey⟩
    · exact ⟨hexp.touch hk, hk, hkey⟩

/-! ## The invariant -/

/-- The tree and the queue have the same nodes, each once. -/
structure Shzone.WF (z : Shzone) : Prop where
  nodup : z.keys.Nodup
  queueNodup : z.lruQueue.Nodup
  same : ∀ k, k ∈ z.lruQueue ↔ k ∈ z.keys
  fresh : ∀ k ∈ z.keys, k.id < z.next
  hash : ∀ k ∈ z.keys, k.hash = ngxCrc32Short k.key

/-- No two nodes have the same key. -/
def Shzone.Unique (z : Shzone) : Prop := ∀ a ∈ z.keys, ∀ b ∈ z.keys, a.key = b.key → a = b

structure Shzone.Inv (z : Shzone) : Prop where
  wf : z.WF
  unique : z.Unique

theorem inv_init (heap : NodeKey → ShdictNode) : (Shzone.init heap).Inv := by
  refine ⟨⟨.nil, .nil, fun k => Iff.rfl, ?_, ?_⟩, ?_⟩
  · simp [Shzone.init, Shzone.keys]
  · simp [Shzone.init, Shzone.keys]
  · intro a ha
    simp [Shzone.init, Shzone.keys] at ha

theorem Shzone.WF.mem_remove {z : Shzone} (h : z.WF) {k x : NodeKey} : x ∈ (z.remove k).keys ↔ x ∈ z.keys ∧ x ≠ k :=
  mem_keys_delete h.nodup k x

theorem Shzone.WF.remove {z : Shzone} (h : z.WF) (k : NodeKey) : (z.remove k).WF where
  nodup := nodup_keys_delete h.nodup k
  queueNodup := h.queueNodup.erase k
  same x := by
    rw [h.mem_remove, ← h.same, Shzone.remove, h.queueNodup.mem_erase_iff, and_comm]
  fresh x hx := h.fresh x (h.mem_remove.1 hx).1
  hash x hx := h.hash x (h.mem_remove.1 hx).1

theorem Shzone.WF.touch {z : Shzone} (h : z.WF) {k : NodeKey} (hk : k ∈ z.keys) : (z.touch k).WF where
  nodup := h.nodup
  queueNodup := by
    rw [Shzone.touch, List.nodup_cons]
    exact ⟨fun hm => (h.queueNodup.mem_erase_iff.1 hm).1 rfl, h.queueNodup.erase k⟩
  same x := by
    change x ∈ k :: z.lruQueue.erase k ↔ x ∈ z.keys
    rw [List.mem_cons, h.queueNodup.mem_erase_iff, h.same]
    constructor
    · rintro (rfl | ⟨-, hx⟩)
      · exact hk
      · exact hx
    · intro hx
      by_cases hxk : x = k
      · exact Or.inl hxk
      · exact Or.inr ⟨hxk, hx⟩
  fresh := h.fresh
  hash := h.hash

theorem Shzone.WF.insert {z : Shzone} (h : z.WF) (key : Bytes) (sd : ShdictNode) :
    (z.insert (.mk (ngxCrc32Short key) key z.next) sd).WF := by
  have hnew : NodeKey.mk (ngxCrc32Short key) key z.next ∉ z.keys := fun hm => by
    have := h.fresh _ hm
    simp at this
  have hmem : ∀ x, x ∈ (z.insert (.mk (ngxCrc32Short key) key z.next) sd).keys ↔
      x = .mk (ngxCrc32Short key) key z.next ∨ x ∈ z.keys := fun x => mem_keys_insert z.rbtree _ x
  refine ⟨nodup_keys_insert h.nodup hnew, ?_, fun x => ?_, fun x hx => ?_, fun x hx => ?_⟩
  · exact List.nodup_cons.2 ⟨fun hm => hnew ((h.same _).1 hm), h.queueNodup⟩
  · rw [hmem, ← h.same]
    exact List.mem_cons
  · rcases (hmem x).1 hx with rfl | hx
    · exact Nat.lt_succ_self _
    · exact Nat.lt_succ_of_lt (h.fresh x hx)
  · rcases (hmem x).1 hx with rfl | hx
    · rfl
    · exact h.hash x hx

theorem Shzone.Inv.moves {z z' : Shzone} (h : z.Inv) (hm : Moves z z') : z'.Inv := by
  refine Moves.inv (fun z k hz => ⟨hz.wf.remove k, ?_⟩) (fun z k hk hz => ⟨hz.wf.touch hk, hz.unique⟩)
    (fun z hz => ⟨⟨hz.wf.nodup, hz.wf.queueNodup, hz.wf.same, hz.wf.fresh, hz.wf.hash⟩, hz.unique⟩) hm h
  intro a ha b hb
  exact hz.unique a (hz.wf.mem_remove.1 ha).1 b (hz.wf.mem_remove.1 hb).1

/-- A key that the search does not find is not there. -/
theorem Shzone.WF.ne_of_pos_ne {z : Shzone} (h : z.WF) {key : Bytes}
    (hnew : ∀ k ∈ z.keys, k.pos ≠ toLex (ngxCrc32Short key, key)) : ∀ k ∈ z.keys, k.key ≠ key := by
  intro k hk he
  exact hnew k hk (NodeKey.pos_eq (by rw [h.hash k hk, he]) he)

/-- A new key keeps the keys unique. -/
theorem Shzone.Inv.insert {z : Shzone} (h : z.Inv) {key : Bytes} (sd : ShdictNode)
    (hnew : ∀ k ∈ z.keys, k.pos ≠ toLex (ngxCrc32Short key, key)) :
    (z.insert (.mk (ngxCrc32Short key) key z.next) sd).Inv := by
  have hkey := h.wf.ne_of_pos_ne hnew
  refine ⟨h.wf.insert key sd, fun a ha b hb hab => ?_⟩
  rcases (mem_keys_insert z.rbtree _ a).1 ha with rfl | ha <;> rcases (mem_keys_insert z.rbtree _ b).1 hb with rfl | hb
  · rfl
  · exact absurd hab.symm (hkey b hb)
  · exact absurd hab (hkey a ha)
  · exact h.unique a ha b hb hab

theorem Shzone.Inv.put {z : Shzone} (h : z.Inv) (k : NodeKey) (sd : ShdictNode) : (z.put k sd).Inv :=
  ⟨⟨h.wf.nodup, h.wf.queueNodup, h.wf.same, h.wf.fresh, h.wf.hash⟩, h.unique⟩

/-! ## The write -/

/-- What a call with key `key` and value `value` leaves of a zone; `written` are the nodes that it
writes over whatever the length of the value. -/
inductive Effect (now : Nat) (key : Bytes) (value : Option CStr) (written : NodeKey → Prop) (z : Shzone) : Outcome → Prop
  | nothing {z' : Shzone} {rc : Option Int} (h : Moves z z') : Effect now key value written z ⟨z', rc, false⟩
  | insert {z' : Shzone} {v : CStr} (h : Moves z z') (hv : value = some v) (hkl : key.length ≤ 65535)
      (hnew : ∀ k ∈ z'.keys, k.pos ≠ toLex (ngxCrc32Short key, key)) (hn : 0 ≤ allocSize key v.bytes) :
      Effect now key value written z
        ⟨z'.insert (.mk (ngxCrc32Short key) key z'.next) (fillNode key v.bytes now (allocSize key v.bytes - nodeHeader)
          (z'.heap (.mk (ngxCrc32Short key) key z'.next)).data), some ngxOk, true⟩
  | write {z' : Shzone} {v : CStr} {k : NodeKey} (h : Moves z z') (hv : value = some v) (hk : k ∈ z'.keys)
      (hkey : k.key = key) (hlen : v.bytes.length = (z.heap k).valueLen ∨ written k) :
      Effect now key value written z (overwrite now key z' k v)

/-- The call gets to the dictionary. -/
def Enters (z : Shzone) (key : Bytes) : Prop := 1 ≤ key.length ∧ key.length ≤ 65535 ∧ z.locked = false

section

variable {z z₁ : Shzone} {written : NodeKey → Prop} {key : Bytes} (now : Nat) (alloc : Nat → Bool) (value : Option CStr)
  (flags : Nat)

theorem effect_labelInsert (hm : Moves z z₁) (hkl : key.length ≤ 65535)
    (hnew : ∀ k ∈ z₁.keys, k.pos ≠ toLex (ngxCrc32Short key, key)) :
    Effect now key value written z (labelInsert now alloc (ngxCrc32Short key) key value flags z₁) := by
  cases value with
  | none => exact .nothing hm
  | some v =>
    obtain ⟨hm₂, hn⟩ := allocNode_spec now alloc (allocSize key v.bytes) flags z₁
    by_cases hr : (allocNode now alloc (allocSize key v.bytes) flags z₁).2 = true
    · have he : Effect now key (some v) written z _ :=
        .insert (hm.trans hm₂) rfl hkl (fun k hk => hnew k (hm₂.keys k hk)) (hn hr)
      simpa only [labelInsert, if_pos hr] using he
    · have he : Effect now key (some v) written z
          ⟨(allocNode now alloc (allocSize key v.bytes) flags z₁).1, some ngxError, false⟩ := .nothing (hm.trans hm₂)
      simpa only [labelInsert, if_neg hr] using he

/-- Where a node of the key was removed, none is left. -/
theorem Shzone.Inv.none_left {z : Shzone} (h : z.Inv) {k : NodeKey} {key : Bytes} (hk : k ∈ z.keys)
    (hkey : k.key = key) : ∀ x ∈ (z.remove k).keys, x.pos ≠ toLex (ngxCrc32Short key, key) := by
  intro x hx hpos
  obtain ⟨hxz, hne⟩ := h.wf.mem_remove.1 hx
  have hxkey : x.key = key := congrArg (fun p => (ofLex p).2) hpos
  exact hne (h.unique x hxz k hk (hxkey.trans hkey.symm))

theorem effect_labelReplace (hi : z₁.Inv) (hm : Moves z z₁) (hkl : key.length ≤ 65535) {k : NodeKey}
    (hk : k ∈ z₁.keys) (hkey : k.key = key) :
    Effect now key value written z (labelReplace now alloc (ngxCrc32Short key) key value flags z₁ k) := by
  have hrem : Effect now key value written z (labelRemove now alloc (ngxCrc32Short key) key value flags z₁ k) :=
    effect_labelInsert now alloc value flags (hm.remove k) hkl (hi.none_left hk hkey)
  unfold labelReplace
  cases value with
  | none => exact hrem
  | some v =>
    simp only
    split
    · rename_i hlen
      exact .write hm rfl hk hkey (Or.inl (by rw [hlen, hm.heap]))
    · exact hrem

end

theorem effect_store (z : Shzone) (now : Nat) (alloc : Nat → Bool) (key : Bytes) (value : Option CStr)
    (hno : Enters z key → ∀ k, (enter z now key).2 ≠ .done k) :
    Effect now key value (fun k => Enters z key ∧ (enter z now key).2 = .ok k) z
      (ngxMqttShdictStore z now alloc key value) := by
  unfold ngxMqttShdictStore
  split
  · exact .nothing .refl
  · split
    · exact .nothing .refl
    · rename_i hlen hlock
      have hent : Enters z key := ⟨by omega, by omega, by simpa using hlock⟩
      obtain ⟨hm, hspec⟩ := enter_spec z now key
      simp only
      cases hrc : (enter z now key).2 with
      | ok k =>
        rw [hrc] at hspec
        cases value with
        | none => exact .nothing hm
        | some v => exact .write hm rfl hspec.1 hspec.2 (Or.inr ⟨hent, rfl⟩)
      | done k => exact absurd hrc (hno hent k)
      | declined =>
        rw [hrc] at hspec
        exact effect_labelInsert now alloc value 0 hm hent.2.1 hspec

theorem offsetGoto_cases (value : Option CStr) (z : Shzone) (k : NodeKey) :
    offsetGoto value z k = .replace k ∨ offsetGoto value z k = .keep ∨ offsetGoto value z k = .fault := by
  unfold offsetGoto
  cases value with
  | none => exact Or.inr (Or.inr rfl)
  | some v =>
    simp only
    split
    · exact Or.inl rfl
    · exact Or.inr (Or.inl rfl)

/-- The answer of the lookup with which each label is reached. -/
theorem updateGoto_spec (value : Option CStr) (flags : Nat) (z : Shzone) (rc : Rc) :
    match updateGoto value flags z rc with
    | .replace k => rc = .ok k ∨ rc = .done k
    | .remove k => rc = .ok k
    | .insert => rc = .declined ∨
        flags &&& luaShdictReplace = 0 ∧ flags &&& luaShdictAdd ≠ 0 ∧ ∃ k, rc = .done k
    | _ => True := by
  unfold updateGoto
  by_cases hr : flags &&& luaShdictReplace ≠ 0
  · rw [if_pos hr]
    cases rc with
    | ok k => rcases offsetGoto_cases value z k with he | he | he <;> simp [he]
    | done k => rcases offsetGoto_cases value z k with he | he | he <;> simp [he]
    | declined => exact Or.inl rfl
  · rw [if_neg hr]
    by_cases ha : flags &&& luaShdictAdd ≠ 0
    · rw [if_pos ha]
      cases rc with
      | ok k => trivial
      | done k => exact Or.inr ⟨by simpa using hr, ha, k, rfl⟩
      | declined => exact Or.inl rfl
    · rw [if_neg ha]
      cases rc with
      | ok k => rfl
      | done k => trivial
      | declined => trivial

theorem effect_update {z : Shzone} (hi : z.Inv) (now : Nat) (alloc : Nat → Bool) (key : Bytes)
    (value : Option CStr) (flags : Nat)
    (hno : Enters z key → flags &&& luaShdictReplace = 0 → flags &&& luaShdictAdd ≠ 0 →
      ∀ k, (enter z now key).2 ≠ .done k) :
    Effect now key value (fun _ => False) z (ngxMqttShdictUpdateOffset z now alloc key value flags) := by
  unfold ngxMqttShdictUpdateOffset
  split
  · exact .nothing .refl
  · split
    · exact .nothing .refl
    · rename_i hlen hlock
      have hkl : key.length ≤ 65535 := by omega
      have hno := hno ⟨by omega, hkl, by simpa using hlock⟩
      obtain ⟨hm, hspec⟩ := enter_spec z now key
      have hi₁ := hi.moves hm
      have hgoto := updateGoto_spec value flags (enter z now key).1 (enter z now key).2
      simp only
      cases hg : updateGoto value flags (enter z now key).1 (enter z now key).2 with
      | replace k =>
        rw [hg] at hgoto
        have hk : k ∈ (enter z now key).1.keys ∧ k.key = key := by
          rcases hgoto with hrc | hrc <;> (rw [hrc] at hspec; exact hspec)
        exact effect_labelReplace now alloc value flags hi₁ hm hkl hk.1 hk.2
      | remove k =>
        rw [hg] at hgoto
        have hrc : (enter z now key).2 = .ok k := hgoto
        rw [hrc] at hspec
        obtain ⟨hk, hkey⟩ := hspec
        exact effect_labelInsert now alloc value flags (hm.remove k) hkl (hi₁.none_left hk hkey)
      | insert =>
        rw [hg] at hgoto
        rcases hgoto with hrc | ⟨hr, ha, k, hrc⟩
        · rw [hrc] at hspec
          exact effect_labelInsert now alloc value flags hm hkl hspec
        · exact absurd hrc (hno hr ha k)
      | keep => exact .nothing hm
      | leak => exact .nothing hm.leak
      | fault => exact .nothing hm

/-! ## Runs -/

inductive DictCall
  | store (now : Nat) (alloc : Nat → Bool) (key : Bytes) (value : Option CStr)
  | updateOffset (now : Nat) (alloc : Nat → Bool) (key : Bytes) (value : Option CStr) (flags : Nat)

def DictCall.key : DictCall → Bytes
  | .store _ _ key _ => key
  | .updateOffset _ _ key _ _ => key

def DictCall.now : DictCall → Nat
  | .store now _ _ _ => now
  | .updateOffset now _ _ _ _ => now

def DictCall.value : DictCall → Option CStr
  | .store _ _ _ value => value
  | .updateOffset _ _ _ value _ => value

def dictCall (z : Shzone) : DictCall → Outcome
  | .store now alloc key value => ngxMqttShdictStore z now alloc key value
  | .updateOffset now alloc key value flags => ngxMqttShdictUpdateOffset z now alloc key value flags

def dictStep (z : Shzone) (c : DictCall) : Shzone := (dictCall z c).zone

/-- A store, or an `ADD` without `REPLACE`, does not find its key expired. -/
def FindsNoExpired (z : Shzone) : DictCall → Prop
  | .store now _ key _ => Enters z key → ∀ k, (enter z now key).2 ≠ .done k
  | .updateOffset now _ key _ flags =>
    Enters z key → flags &&& luaShdictReplace = 0 → flags &&& luaShdictAdd ≠ 0 → ∀ k, (enter z now key).2 ≠ .done k

/-- The nodes that a store writes over. -/
def DictCall.written (z : Shzone) : DictCall → NodeKey → Prop
  | .store now _ key _, k => Enters z key ∧ (enter z now key).2 = .ok k
  | .updateOffset .., _ => False

theorem effect_dictCall {z : Shzone} (hi : z.Inv) {c : DictCall} (hc : FindsNoExpired z c) :
    Effect c.now c.key c.value (c.written z) z (dictCall z c) := by
  cases c with
  | store now alloc key value => exact effect_store z now alloc key value hc
  | updateOffset now alloc key value flags => exact effect_update hi now alloc key value flags hc

theorem Shzone.Inv.effect {z : Shzone} (hi : z.Inv) {now : Nat} {key : Bytes} {value : Option CStr}
    {written : NodeKey → Prop} {o : Outcome} (h : Effect now key value written z o) : o.zone.Inv := by
  cases h with
  | nothing hm => exact hi.moves hm
  | insert hm _ _ hnew _ => exact (hi.moves hm).insert _ hnew
  | write hm _ hk _ _ => exact ((hi.moves hm).moves (Moves.refl.touch hk)).put _ _

/-- The new node's size is an `int`, and a store over a live node has room for its value. -/
def HasRoom (z : Shzone) (c : DictCall) : Prop :=
  ∀ v, c.value = some v →
    nodeHeader + c.key.length + v.bytes.length < 2 ^ 31 ∧
      ∀ k, c.written z k → ((c.key.length + v.bytes.length : Nat) : Int) ≤ (z.heap k).size

/-- The two tests that the code leaves out. -/
def KeepsNodes (z : Shzone) (c : DictCall) : Prop := FindsNoExpired z c ∧ HasRoom z c

/-- **Unique keys**: in every run whose calls do not find their key expired where they
insert, and stay within the node where they write over one, no key has two nodes, and the
tree and the queue have the same nodes. -/
theorem keys_stay_unique (heap : NodeKey → ShdictNode) (cs : List DictCall)
    (h : Always dictStep KeepsNodes (.init heap) cs) :
    (run dictStep (.init heap) cs).Unique ∧
      ∀ k, k ∈ (run dictStep (.init heap) cs).lruQueue ↔ k ∈ (run dictStep (.init heap) cs).keys := by
  have hi : (run dictStep (.init heap) cs).Inv :=
    run_inv dictStep (fun z c hz hc => hz.effect (effect_dictCall hz hc.1)) (inv_init heap) h
  exact ⟨hi.unique, hi.wf.same⟩

/-- Memory that was never written. -/
def blank (_ : NodeKey) : ShdictNode := ⟨0, 0, 0, Stream'.const 0, 0⟩

def storeCall (minutes : Nat) (key value : Bytes) : DictCall :=
  .store (minutes * 60000) (fun _ => true) key (some ⟨value, Stream'.const 0⟩)

theorem keys_stay_unique_two_keys :
    Always dictStep KeepsNodes (.init blank) [storeCall 0 [0x61] [1], storeCall 1 [0x62] [2]] ∧
      (run dictStep (.init blank) [storeCall 0 [0x61] [1], storeCall 1 [0x62] [2]]).Unique := by
  have h1 : (enter (.init blank) (0 * 60000) [0x61]).2 = .declined := by decide +kernel
  have h2 : (enter (dictStep (.init blank) (storeCall 0 [0x61] [1])) (1 * 60000) [0x62]).2 = .declined := by
    decide +kernel
  have h : Always dictStep KeepsNodes (.init blank) [storeCall 0 [0x61] [1], storeCall 1 [0x62] [2]] := by
    refine ⟨⟨fun _ k hk => ?_, fun v hv => ⟨?_, fun k hk => ?_⟩⟩,
      ⟨fun _ k hk => ?_, fun v hv => ⟨?_, fun k hk => ?_⟩⟩, trivial⟩
    · rw [h1] at hk
      cases hk
    · obtain rfl := Option.some.inj hv
      decide
    · have hk2 := hk.2
      rw [h1] at hk2
      cases hk2
    · rw [h2] at hk
      cases hk
    · obtain rfl := Option.some.inj hv
      decide
    · have hk2 := hk.2
      rw [h2] at hk2
      cases hk2
  exact ⟨h, (keys_stay_unique blank _ h).1⟩

/-- Three keys are stored, and one of them again when all have expired: the other two are
evicted, it is found expired, and it is inserted a second time. -/
theorem store_on_expired_duplicates :
    ¬ ∀ cs : List DictCall, (run dictStep (.init blank) cs).Unique := by
  intro h
  have hu := h [storeCall 0 [0x61] [1], storeCall 0 [0x62] [2], storeCall 0 [0x63] [3], storeCall 31 [0x63] [4]]
  have h2 : NodeKey.mk (ngxCrc32Short [0x63]) [0x63] 2 ∈
      (run dictStep (.init blank) [storeCall 0 [0x61] [1], storeCall 0 [0x62] [2], storeCall 0 [0x63] [3],
        storeCall 31 [0x63] [4]]).keys := by decide +kernel
  have h3 : NodeKey.mk (ngxCrc32Short [0x63]) [0x63] 3 ∈
      (run dictStep (.init blank) [storeCall 0 [0x61] [1], storeCall 0 [0x62] [2], storeCall 0 [0x63] [3],
        storeCall 31 [0x63] [4]]).keys := by decide +kernel
  have he := congrArg NodeKey.id (hu _ h2 _ h3 rfl)
  exact absurd he (by decide)

/-! ## Sizes and values -/

/-- A zone, and for each key the value last stored or accepted for it. -/
structure Watched where
  zone : Shzone
  latest : Bytes → Option Bytes

def Watched.init (heap : NodeKey → ShdictNode) : Watched := ⟨.init heap, fun _ => none⟩

def watchStep (w : Watched) (c : DictCall) : Watched :=
  let o := dictCall w.zone c
  match o.stored, c.value with
  | true, some v => ⟨o.zone, Function.update w.latest c.key (some v.bytes)⟩
  | _, _ => ⟨o.zone, w.latest⟩

def SafeCall (w : Watched) (c : DictCall) : Prop := KeepsNodes w.zone c

/-- A node within its memory, with the latest value of its key. -/
structure NodeOk (latest : Bytes → Option Bytes) (k : NodeKey) (sd : ShdictNode) : Prop where
  keyLen : sd.keyLen = k.key.length
  short : k.key.length ≤ 65535
  fits : ((sd.keyLen + sd.valueLen : Nat) : Int) ≤ sd.size
  value : latest k.key = some sd.value

structure WatchedInv (w : Watched) : Prop where
  inv : w.zone.Inv
  nodes : ∀ k ∈ w.zone.keys, NodeOk w.latest k (w.zone.heap k)

theorem value_fillNode {key value : Bytes} (hk : key.length ≤ 65535) (hv : value.length < 2 ^ 32) (now : Nat)
    (size : Int) (old : Mem) : (fillNode key value now size old).value = value := by
  have h1 : key.length % 2 ^ 16 = key.length := Nat.mod_eq_of_lt (by omega)
  have h2 : value.length % 2 ^ 32 = value.length := Nat.mod_eq_of_lt hv
  simp only [ShdictNode.value, fillNode, h1, h2]
  rw [Stream'.append_append_stream, drop_append_of_eq _ _ rfl, take_append_of_eq _ _ rfl]

/-- Writing `value` for `key` into a node with room for it. -/
theorem nodeOk_fillNode {k : NodeKey} {key value : Bytes} {size : Int} (latest : Bytes → Option Bytes) (now : Nat)
    (old : Mem) (hkey : k.key = key) (hk : key.length ≤ 65535) (hv : value.length < 2 ^ 32)
    (hsize : ((key.length + value.length : Nat) : Int) ≤ size) :
    NodeOk (Function.update latest key (some value)) k (fillNode key value now size old) := by
  have h1 : key.length % 2 ^ 16 = key.length := Nat.mod_eq_of_lt (by omega)
  have h2 : value.length % 2 ^ 32 = value.length := Nat.mod_eq_of_lt hv
  refine ⟨by rw [hkey]; exact h1, by rw [hkey]; exact hk, ?_, ?_⟩
  · simp only [fillNode, h1, h2]
    exact hsize
  · rw [hkey, Function.update_self, value_fillNode hk hv]

theorem NodeOk.update {latest : Bytes → Option Bytes} {k : NodeKey} {sd : ShdictNode} (h : NodeOk latest k sd)
    {key : Bytes} (hne : k.key ≠ key) (v : Option Bytes) : NodeOk (Function.update latest key v) k sd :=
  ⟨h.keyLen, h.short, h.fits, by rw [Function.update_of_ne hne]; exact h.value⟩

theorem WatchedInv.moves {w : Watched} (h : WatchedInv w) {z : Shzone} (hm : Moves w.zone z) :
    WatchedInv ⟨z, w.latest⟩ :=
  ⟨h.inv.moves hm, fun k hk => by rw [hm.heap]; exact h.nodes k (hm.keys k hk)⟩

theorem WatchedInv.insert {z : Shzone} {latest : Bytes → Option Bytes} (h : WatchedInv ⟨z, latest⟩) {key value : Bytes}
    (now : Nat) (old : Mem) (hlen : key.length ≤ 65535) (hsum : nodeHeader + key.length + value.length < 2 ^ 31)
    (hnew : ∀ k ∈ z.keys, k.pos ≠ toLex (ngxCrc32Short key, key)) :
    WatchedInv ⟨z.insert (.mk (ngxCrc32Short key) key z.next)
      (fillNode key value now (allocSize key value - nodeHeader) old), Function.update latest key (some value)⟩ := by
  have hsize : ((key.length + value.length : Nat) : Int) ≤ allocSize key value - nodeHeader := by
    unfold allocSize nodeHeader at *
    omega
  have hkey := h.inv.wf.ne_of_pos_ne hnew
  refine ⟨h.inv.insert _ hnew, fun k hk => ?_⟩
  rcases (mem_keys_insert z.rbtree _ k).1 hk with rfl | hk
  · simp only [Shzone.insert, Function.update_self]
    exact nodeOk_fillNode latest now old rfl hlen (by unfold nodeHeader at hsum; omega) hsize
  · have hne : k ≠ .mk (ngxCrc32Short key) key z.next := by
      rintro rfl
      exact hkey _ hk rfl
    simp only [Shzone.insert, Function.update_of_ne hne]
    exact (h.nodes k hk).update (hkey k hk) _

theorem WatchedInv.write {z : Shzone} {latest : Bytes → Option Bytes} (h : WatchedInv ⟨z, latest⟩) {key : Bytes}
    {v : CStr} {k : NodeKey} (now : Nat) (hk : k ∈ z.keys) (hkey : k.key = key) (hv : v.bytes.length < 2 ^ 32)
    (hroom : ((key.length + v.bytes.length : Nat) : Int) ≤ (z.heap k).size) :
    WatchedInv ⟨(overwrite now key z k v).zone, Function.update latest key (some v.bytes)⟩ := by
  refine ⟨(h.inv.moves (Moves.refl.touch hk)).put _ _, fun x hx => ?_⟩
  by_cases hxk : x = k
  · subst hxk
    simp only [overwrite, Shzone.put, Function.update_self]
    exact nodeOk_fillNode latest now _ hkey (hkey ▸ (h.nodes x hk).short) hv hroom
  · simp only [overwrite, Shzone.put, Function.update_of_ne hxk]
    refine (h.nodes x hx).update (fun he => hxk ?_) _
    exact h.inv.unique x hx k hk (he.trans hkey.symm)

theorem WatchedInv.step {w : Watched} (h : WatchedInv w) {c : DictCall} (hc : SafeCall w c) :
    WatchedInv (watchStep w c) := by
  obtain ⟨hno, hsafe⟩ := hc
  have he := effect_dictCall h.inv hno
  unfold watchStep
  generalize dictCall w.zone c = o at he
  cases he with
  | nothing hm => exact h.moves hm
  | insert hm hv hkl hnew hn =>
    simp only [hv]
    exact (h.moves hm).insert c.now _ hkl (hsafe _ hv).1 hnew
  | @write z' v k hm hv hk hkey hlen =>
    obtain ⟨hsum, hroom⟩ := hsafe _ hv
    have hroom' : ((c.key.length + v.bytes.length : Nat) : Int) ≤ (z'.heap k).size := by
      rw [hm.heap]
      rcases hlen with hlen | hover
      · have hok := h.nodes k (hm.keys k hk)
        have hfits := hok.fits
        rw [hok.keyLen, hkey, ← hlen] at hfits
        exact hfits
      · exact hroom k hover
    simp only [hv]
    exact (h.moves hm).write c.now hk hkey (by unfold nodeHeader at hsum; omega) hroom'

/-- Every node within the memory it was allocated with. -/
def NoOverflow (z : Shzone) : Prop :=
  ∀ k ∈ z.keys, (((z.heap k).keyLen + (z.heap k).valueLen : Nat) : Int) ≤ (z.heap k).size

/-- A lookup that finds a key alive finds its latest value. -/
def YieldsLatest (w : Watched) : Prop :=
  ∀ now key k, (ngxHttpLuaShdictLookup w.zone now (ngxCrc32Short key) key).2 = .ok k →
    w.latest key = some (w.zone.heap k).value

theorem lookup_ok {z : Shzone} {now hash : Nat} {key : Bytes} {k : NodeKey}
    (h : (ngxHttpLuaShdictLookup z now hash key).2 = .ok k) : k ∈ z.keys ∧ k.key = key := by
  unfold ngxHttpLuaShdictLookup at h
  cases hl : lookupNode hash key z.rbtree.root with
  | none => simp [hl] at h
  | some x =>
    simp only [hl] at h
    split at h
    · cases h
    · cases h
      exact ⟨(lookupNode_some hl).1, (lookupNode_some hl).2.2⟩

/-- **No overflow, and the latest value**, in every run whose calls are safe. -/
theorem nodes_never_overflow (heap : NodeKey → ShdictNode) (cs : List DictCall)
    (h : Always watchStep SafeCall (.init heap) cs) :
    NoOverflow (run watchStep (.init heap) cs).zone ∧ YieldsLatest (run watchStep (.init heap) cs) := by
  have h0 : WatchedInv (.init heap) := ⟨inv_init heap, fun k hk => by
    simp [Watched.init, Shzone.init, Shzone.keys] at hk⟩
  have hi : WatchedInv (run watchStep (.init heap) cs) :=
    run_inv watchStep (fun w c hw hc => hw.step hc) h0 h
  refine ⟨fun k hk => (hi.nodes k hk).fits, fun now key k hk => ?_⟩
  obtain ⟨hmem, hkey⟩ := lookup_ok hk
  rw [← hkey]
  exact (hi.nodes k hmem).value

theorem nodes_never_overflow_two_stores :
    Always watchStep SafeCall (.init blank) [storeCall 0 [0x61] [1, 2], storeCall 1 [0x61] [3]] ∧
      NoOverflow (run watchStep (.init blank) [storeCall 0 [0x61] [1, 2], storeCall 1 [0x61] [3]]).zone := by
  have h1 : (enter (.init blank) (0 * 60000) [0x61]).2 = .declined := by decide +kernel
  have h2 : (enter (watchStep (.init blank) (storeCall 0 [0x61] [1, 2])).zone (1 * 60000) [0x61]).2 =
      .ok (.mk (ngxCrc32Short [0x61]) [0x61] 0) := by decide +kernel
  have hsize : ((watchStep (.init blank) (storeCall 0 [0x61] [1, 2])).zone.heap
      (.mk (ngxCrc32Short [0x61]) [0x61] 0)).size = 3 := by decide +kernel
  have h : Always watchStep SafeCall (.init blank) [storeCall 0 [0x61] [1, 2], storeCall 1 [0x61] [3]] := by
    refine ⟨⟨fun _ k hk => ?_, fun v hv => ⟨?_, fun k hk => ?_⟩⟩,
      ⟨fun _ k hk => ?_, fun v hv => ⟨?_, fun k hk => ?_⟩⟩, trivial⟩
    · rw [show (enter (Watched.init blank).zone (0 * 60000) [0x61]).2 = .declined from h1] at hk
      cases hk
    · obtain rfl := Option.some.inj hv
      decide
    · have := hk.2
      rw [show (enter (Watched.init blank).zone (0 * 60000) [0x61]).2 = .declined from h1] at this
      cases this
    · rw [h2] at hk
      cases hk
    · obtain rfl := Option.some.inj hv
      decide
    · obtain rfl := Option.some.inj hv
      have hk2 := hk.2
      rw [h2] at hk2
      obtain rfl := Rc.ok.inj hk2
      rw [hsize]
      decide
  exact ⟨h, (nodes_never_overflow blank _ h).1⟩

/-- A value of one byte, then one of three bytes for the same key. -/
theorem longer_store_overflows :
    ¬ ∀ cs : List DictCall, NoOverflow (run watchStep (.init blank) cs).zone ∧
      YieldsLatest (run watchStep (.init blank) cs) := by
  intro h
  have hno := (h [storeCall 0 [0x61] [1], storeCall 1 [0x61] [1, 2, 3]]).1
  have hk : NodeKey.mk (ngxCrc32Short [0x61]) [0x61] 0 ∈
      (run watchStep (.init blank) [storeCall 0 [0x61] [1], storeCall 1 [0x61] [1, 2, 3]]).zone.keys := by
    decide +kernel
  have hbad := hno _ hk
  exact absurd hbad (by decide +kernel)

end NgxPlus.Mqtt
