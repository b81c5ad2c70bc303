import Mathlib.Data.Nat.Log
import Mathlib.Tactic.Ring
import NgxPlus.Lib.Trace
import NgxPlus.RbtreeDelete

/-!
# nginx red-black trees stay balanced

`Balanced n t`: no red node of `t` has a red child, and there are `n` black nodes on every way
down. `Hole n fs` says the same of everything around a place: a balanced subtree with `n` black
nodes on every way down makes a balanced tree there. Insertion puts a red node at the end of such
a place and moves the one possible violation upwards (`rebalance_spec`); deletion leaves a subtree
that is `Short` of one black node and moves that upwards (`fixup_spec`).
-/

namespace NgxPlus.Rbtree

variable {α : Type}

/-! ## The invariant, and places in a tree -/

def Balanced : Nat → Node α → Prop
  | n, .sentinel => n = 0
  | n, .node .black l _ r => ∃ m, n = m + 1 ∧ Balanced m l ∧ Balanced m r
  | n, .node .red l _ r => l.isRed = false ∧ r.isRed = false ∧ Balanced n l ∧ Balanced n r

/-- The parent, if there is one, is black. -/
def ParentBlack (fs : List (Frame α)) : Prop := ∀ f ∈ fs.head?, f.color = .black

/-- The parents above a place for a subtree with `n` black nodes on every way down. The root is
black, so a red parent has a parent. -/
def Hole : Nat → List (Frame α) → Prop
  | _, [] => True
  | n, f :: fs =>
    Balanced n f.sibling ∧
      match f.color with
      | .black => Hole (n + 1) fs
      | .red => f.sibling.isRed = false ∧ fs ≠ [] ∧ ParentBlack fs ∧ Hole n fs

/-- The tree as a whole. -/
def RedBlack (t : Node α) : Prop := t.isRed = false ∧ ∃ n, Balanced n t

theorem balanced_black {n : Nat} {l r : Node α} {k : α} :
    Balanced (n + 1) (.node .black l k r) ↔ Balanced n l ∧ Balanced n r := by
  constructor
  · rintro ⟨m, hm, hl, hr⟩
    obtain rfl : n = m := Nat.succ.inj hm
    exact ⟨hl, hr⟩
  · exact fun ⟨hl, hr⟩ => ⟨n, rfl, hl, hr⟩

/-- A red node made black is one more black node on every way down. -/
theorem Balanced.blacken {n : Nat} {t : Node α} (h : Balanced n t) (ht : t.isRed = true) : Balanced
    (n + 1) t.blacken := by
  cases t with
  | sentinel => cases ht
  | node c l k r =>
    cases c with
    | red => exact balanced_black.2 ⟨h.2.2.1, h.2.2.2⟩
    | black => cases ht

theorem blacken_of_black {t : Node α} (ht : t.isRed = false) : t.blacken = t := by
  cases t with
  | sentinel => rfl
  | node c l k r =>
    cases c with
    | red => cases ht
    | black => rfl

@[simp] theorem isRed_blacken (t : Node α) : t.blacken.isRed = false := by
  cases t <;> rfl

theorem redBlack_blacken {n : Nat} {t : Node α} (h : Balanced n t) : RedBlack t.blacken := by
  refine ⟨isRed_blacken t, ?_⟩
  cases ht : t.isRed with
  | true => exact ⟨n + 1, h.blacken ht⟩
  | false => exact ⟨n, (blacken_of_black ht).symm ▸ h⟩

/-- With a black node on every way down a black node is no sentinel. -/
theorem Balanced.black_node {n : Nat} {t : Node α} (h : Balanced (n + 1) t) (ht : t.isRed = false) :
    ∃ l k r, t = .node .black l k r ∧ Balanced n l ∧ Balanced n r := by
  cases t with
  | sentinel => cases h
  | node c l k r =>
    cases c with
    | red => cases ht
    | black => exact ⟨l, k, r, rfl, balanced_black.1 h⟩

section Plug

variable {n : Nat} {f : Frame α} {fs : List (Frame α)} {t : Node α}

theorem isRed_plug (f : Frame α) (c : Color) (t : Node α) : (f.plug c t).isRed = (c == .red) := by
  rw [Frame.plug]
  cases f.left <;> cases c <;> rfl

theorem balanced_plug_black (hs : Balanced n f.sibling) (ht : Balanced n t) : Balanced (n + 1) (f.plug .black t) := by
  rw [Frame.plug]
  split
  · exact balanced_black.2 ⟨ht, hs⟩
  · exact balanced_black.2 ⟨hs, ht⟩

theorem balanced_plug_red (hs : Balanced n f.sibling) (ht : Balanced n t) (hsr : f.sibling.isRed = false)
    (htr : t.isRed = false) : Balanced n (f.plug .red t) := by
  rw [Frame.plug]
  split
  · exact ⟨htr, hsr, ht, hs⟩
  · exact ⟨hsr, htr, hs, ht⟩

theorem hole_black (hf : f.color = .black) : Hole n (f :: fs) ↔ Balanced n f.sibling ∧ Hole (n + 1) fs := by
  rw [Hole, hf]

theorem hole_red (hf : f.color = .red) :
    Hole n (f :: fs) ↔ Balanced n f.sibling ∧ f.sibling.isRed = false ∧ fs ≠ [] ∧ ParentBlack fs ∧ Hole n fs := by
  rw [Hole, hf]

/-- A subtree that fits its place makes the tree balanced; the root of the tree is black if the
place is not the root's. -/
theorem plugAll_spec (ht : Balanced n t) (hh : Hole n fs) (hp : t.isRed = true → fs ≠ [] ∧ ParentBlack fs) :
    RedBlack (plugAll t fs) := by
  induction fs generalizing n t with
  | nil =>
    cases hr : t.isRed with
    | true => exact absurd rfl (hp hr).1
    | false => exact ⟨hr, n, ht⟩
  | cons f fs ih =>
    rw [plugAll]
    cases hc : f.color with
    | black =>
      obtain ⟨hs, hh'⟩ := (hole_black hc).1 hh
      exact ih (balanced_plug_black hs ht) hh' fun hr => by
        rw [isRed_plug] at hr
        cases hr
    | red =>
      obtain ⟨hs, hsr, hne, hpb, hh'⟩ := (hole_red hc).1 hh
      have htr : t.isRed = false := by
        cases hr : t.isRed with
        | false => rfl
        | true =>
          have := (hp hr).2 f rfl
          rw [hc] at this
          cases this
      exact ih (balanced_plug_red hs ht hsr htr) hh' fun _ => ⟨hne, hpb⟩

end Plug

/-! ## Going down -/

/-- A subtree in its place. -/
structure Fits (n : Nat) (t : Node α) (fs : List (Frame α)) : Prop where
  balanced : Balanced n t
  hole : Hole n fs
  parent : t.isRed = true → fs ≠ [] ∧ ParentBlack fs

theorem RedBlack.fits {t : Node α} (h : RedBlack t) : ∃ n, Fits n t [] := by
  obtain ⟨hr, n, hb⟩ := h
  exact ⟨n, hb, trivial, fun h => by
    rw [hr] at h
    cases h⟩

/-- The number of black nodes below a node of that colour. -/
theorem Fits.child {n : Nat} {c : Color} {l r : Node α} {k : α} {fs : List (Frame α)} (h : Fits n (.node c l k r) fs) :
    ∃ m, Balanced m l ∧ Balanced m r ∧ (c = .red → l.isRed = false ∧ r.isRed = false) ∧
      ∀ (left : Bool) (k' : α), Hole m (⟨left, c, k', if left then r else l⟩ :: fs) := by
  cases c with
  | black =>
    obtain ⟨m, rfl, hl, hr⟩ := h.balanced
    refine ⟨m, hl, hr, nofun, fun left k' => ?_⟩
    refine (hole_black (f := ⟨left, .black, k', if left then r else l⟩) rfl).2 ⟨?_, h.hole⟩
    cases left
    · exact hl
    · exact hr
  | red =>
    obtain ⟨hlr, hrr, hl, hr⟩ := h.balanced
    obtain ⟨hne, hpb⟩ := h.parent rfl
    refine ⟨n, hl, hr, fun _ => ⟨hlr, hrr⟩, fun left k' => ?_⟩
    refine (hole_red (f := ⟨left, .red, k', if left then r else l⟩) rfl).2 ⟨?_, ?_, hne, hpb, h.hole⟩
    · cases left
      · exact hl
      · exact hr
    · cases left
      · exact hlr
      · exact hrr

theorem Fits.left {n : Nat} {c : Color} {l r : Node α} {k : α} {fs : List (Frame α)} (h : Fits n (.node c l k r) fs)
    (k' : α) :
    ∃ m, Fits m l (⟨true, c, k', r⟩ :: fs) := by
  obtain ⟨m, hl, -, hred, hh⟩ := h.child
  refine ⟨m, hl, hh true k', fun hlr => ⟨by simp, fun f hf => ?_⟩⟩
  obtain rfl := Option.some.inj hf
  cases c with
  | black => rfl
  | red =>
    rw [(hred rfl).1] at hlr
    cases hlr

theorem Fits.right {n : Nat} {c : Color} {l r : Node α} {k : α} {fs : List (Frame α)} (h : Fits n (.node c l k r) fs)
    (k' : α) :
    ∃ m, Fits m r (⟨false, c, k', l⟩ :: fs) := by
  obtain ⟨m, -, hr, hred, hh⟩ := h.child
  refine ⟨m, hr, hh false k', fun hrr => ⟨by simp, fun f hf => ?_⟩⟩
  obtain rfl := Option.some.inj hf
  cases c with
  | black => rfl
  | red =>
    rw [(hred rfl).2] at hrr
    cases hrr

/-! ## Insertion -/

/-- Above a red parent there is a black grandparent. -/
theorem Hole.grand {n : Nat} {p g : Frame α} {fs : List (Frame α)} (h : Hole n (p :: g :: fs)) (hp : p.color ≠ .black) :
    Balanced n p.sibling ∧ p.sibling.isRed = false ∧ Balanced n g.sibling ∧ Hole (n + 1) fs := by
  have hpr : p.color = .red := by
    cases hc : p.color with
    | red => rfl
    | black => exact absurd hc hp
  obtain ⟨hps, hpsr, -, hpb, hh⟩ := (hole_red hpr).1 h
  obtain ⟨hgs, hh'⟩ := (hole_black (hpb g rfl)).1 hh
  exact ⟨hps, hpsr, hgs, hh'⟩

/-- **The loop of `ngx_rbtree_insert`**: a red node that fits but for the colour of its parent. -/
theorem rebalance_spec (t : Node α) (fs : List (Frame α)) {n : Nat} (hr : t.isRed = true) (ht : Balanced n t)
    (hh : Hole n fs) : RedBlack (rebalance t fs).blacken := by
  have hdone : ∀ {s : Node α} {m : Nat} {gs : List (Frame α)}, Balanced m s → Hole m gs →
      (s.isRed = true → gs ≠ [] ∧ ParentBlack gs) → RedBlack (plugAll s gs).blacken := by
    intro s m gs hs hg hp
    have h := plugAll_spec hs hg hp
    rwa [blacken_of_black h.1]
  fun_induction rebalance t fs generalizing n with
  | case1 t => exact redBlack_blacken ht
  | case2 t p =>
    cases hc : p.color with
    | black =>
      obtain ⟨hs, -⟩ := (hole_black hc).1 hh
      exact redBlack_blacken (balanced_plug_black hs ht)
    | red => exact absurd rfl ((hole_red hc).1 hh).2.2.1
  | case3 t p g fs hp =>
    exact hdone ht hh fun _ => ⟨by simp, fun f hf => by
      obtain rfl := Option.some.inj hf
      exact hp⟩
  | case4 t p g fs hp hg ih =>
    obtain ⟨hps, hpsr, hgs, hh'⟩ := hh.grand hp
    exact ih (isRed_plug ..) (balanced_plug_red (hgs.blacken hg) (balanced_plug_black hps ht) (isRed_blacken _)
      (isRed_plug ..)) hh'
  | case5 p g fs hp hg t hpl hgl =>
    obtain ⟨hps, hpsr, hgs, hh'⟩ := hh.grand hp
    refine hdone (balanced_black.2 ⟨ht, ?_⟩) hh' fun h => by cases h
    exact ⟨hpsr, by simpa using hg, hps, hgs⟩
  | case6 p g fs hp hg c l k r hpl hgl =>
    obtain ⟨hps, hpsr, hgs, hh'⟩ := hh.grand hp
    cases c with
    | black => cases hr
    | red =>
      obtain ⟨hlr, hrr, hl, hr'⟩ := ht
      refine hdone (balanced_black.2 ⟨?_, ?_⟩) hh' fun h => by cases h
      · exact ⟨hpsr, hlr, hps, hl⟩
      · exact ⟨hrr, by simpa using hg, hr', hgs⟩
  | case7 p g fs hp hg c l k r hpl hgl =>
    obtain ⟨hps, hpsr, hgs, hh'⟩ := hh.grand hp
    cases c with
    | black => cases hr
    | red =>
      obtain ⟨hlr, hrr, hl, hr'⟩ := ht
      refine hdone (balanced_black.2 ⟨?_, ?_⟩) hh' fun h => by cases h
      · exact ⟨by simpa using hg, hlr, hgs, hl⟩
      · exact ⟨hrr, hpsr, hr', hps⟩
  | case8 p g fs hp hg t hpl hgl =>
    obtain ⟨hps, hpsr, hgs, hh'⟩ := hh.grand hp
    refine hdone (balanced_black.2 ⟨?_, ht⟩) hh' fun h => by cases h
    exact ⟨by simpa using hg, hpsr, hgs, hps⟩
  | case9 p g fs hp hg => cases hr

section Insert

variable [LinearOrder α]

theorem fits_descend (key : α) (t : Node α) (fs : List (Frame α)) {n : Nat} (h : Fits n t fs) :
    Hole 0 (descend key t fs) := by
  induction t generalizing n fs with
  | sentinel =>
    obtain rfl : n = 0 := h.balanced
    exact h.hole
  | node c l k r ihl ihr =>
    rw [descend]
    split
    · obtain ⟨m, hm⟩ := h.left k
      exact ihl _ hm
    · obtain ⟨m, hm⟩ := h.right k
      exact ihr _ hm

theorem redBlack_insertRoot {t : Node α} (h : RedBlack t) (key : α) : RedBlack (insertRoot t key) := by
  cases t with
  | sentinel => exact ⟨rfl, 1, 0, rfl, rfl, rfl⟩
  | node c l k r =>
    obtain ⟨n, hn⟩ := h.fits
    exact rebalance_spec _ _ rfl ⟨rfl, rfl, rfl, rfl⟩ (fits_descend key _ [] hn)

end Insert

/-! ## Deletion -/

theorem isRed_eq_false {t : Node α} (h : ∀ l k r, t = .node .red l k r → False) : t.isRed = false := by
  cases t with
  | sentinel => rfl
  | node c l k r =>
    cases c with
    | red => exact absurd rfl (fun he => h l k r he)
    | black => rfl

/-- A subtree that lacks a black node on every way down, or a red root that may become it. -/
def Short (n : Nat) (t : Node α) : Prop := if t.isRed then Balanced (n + 1) t.blacken else Balanced n t

theorem Short.of_balanced {n : Nat} {t : Node α} (h : Balanced n t) : Short n t := by
  rw [Short]
  split
  · rename_i ht
    exact h.blacken ht
  · exact h

theorem Short.redBlack {n : Nat} {t : Node α} (h : Short n t) : RedBlack t.blacken := by
  rw [Short] at h
  split at h
  · exact ⟨isRed_blacken t, n + 1, h⟩
  · exact redBlack_blacken h

/-- A round that ends the loop leaves a subtree with all its black nodes; one that goes on leaves
one that lacks a black node below a black parent, and is red below a red one. -/
def FixedOk (n : Nat) (pc : Color) : Fixed α → Prop
  | .done t => match pc with
    | .black => Balanced (n + 2) t ∧ t.isRed = false
    | .red => Balanced (n + 1) t
  | .up t => match pc with
    | .black => Balanced (n + 1) t ∧ t.isRed = false
    | .red => t.isRed = true ∧ Balanced (n + 1) t.blacken

/-- The node that takes the parent's place, with its colour. -/
theorem balanced_join {n : Nat} {pc : Color} {l r : Node α} {k : α} (hl : Balanced (n + 1) l) (hr : Balanced (n + 1) r)
    (hlb : l.isRed = false) (hrb : r.isRed = false) : FixedOk n pc (.done (.node pc l k r)) := by
  cases pc with
  | black => exact ⟨balanced_black.2 ⟨hl, hr⟩, rfl⟩
  | red => exact ⟨hlb, hrb, hl, hr⟩

/-- Unless the near child alone is red, the far one is. -/
theorem far_red {near far : Node α} (hboth : near.isRed = false → far.isRed = true)
    (hno : ∀ c a b d, near = .node c a b d → far.isRed = false → False) : far.isRed = true := by
  cases hf : far.isRed with
  | true => rfl
  | false =>
    cases near with
    | sentinel => exact absurd (hboth rfl) (by simp [hf])
    | node c a b d => exact absurd hf (hno c a b d rfl)

/-- **One round below a black sibling**, which has a black node more than `temp`. -/
theorem fixSibling_spec {n : Nat} (left : Bool) (pc : Color) (pk : α) {temp w : Node α} (ht : Balanced n temp)
    (hw : Balanced (n + 1) w) (hwr : w.isRed = false) :
    FixedOk n pc (fixSibling left pc pk temp w) := by
  obtain ⟨wl, wk, wr, rfl, hwl, hwrr⟩ := hw.black_node hwr
  unfold fixSibling
  simp only
  split
  · rename_i hboth
    simp only [Bool.and_eq_true, Bool.not_eq_true'] at hboth
    have hred : Balanced n (.node .red wl wk wr) := ⟨hboth.1, hboth.2, hwl, hwrr⟩
    cases pc with
    | black => cases left <;> exact ⟨balanced_black.2 ⟨by assumption, by assumption⟩, rfl⟩
    | red => cases left <;> exact ⟨rfl, balanced_black.2 ⟨by assumption, by assumption⟩⟩
  · rename_i hboth
    cases left with
    | true =>
      simp only [if_true]
      split
      · rename_i c wll wlk wlr hwrb
        -- the near child is red
        have hred : (Node.node c wll wlk wlr).isRed = true := by simpa [hwrb] using hboth
        cases c with
        | black => cases hred
        | red =>
          obtain ⟨-, -, h1, h2⟩ := hwl
          exact balanced_join (balanced_black.2 ⟨ht, h1⟩) (balanced_black.2 ⟨h2, hwrr⟩) rfl rfl
      · rename_i hno
        have hfar := far_red (by simpa using hboth) hno
        exact balanced_join (balanced_black.2 ⟨ht, hwl⟩) (hwrr.blacken hfar) rfl (isRed_blacken _)
    | false =>
      simp only [Bool.false_eq_true, if_false]
      split
      · rename_i c wrl wrk wrr hwlb
        have hred : (Node.node c wrl wrk wrr).isRed = true := by simpa [hwlb] using hboth
        cases c with
        | black => cases hred
        | red =>
          obtain ⟨-, -, h1, h2⟩ := hwrr
          exact balanced_join (balanced_black.2 ⟨hwl, h1⟩) (balanced_black.2 ⟨h2, ht⟩) rfl rfl
      · rename_i hno
        have hfar := far_red (fun h => by simpa [h] using hboth) hno
        exact balanced_join (hwl.blacken hfar) (balanced_black.2 ⟨hwrr, ht⟩) (isRed_blacken _) rfl

theorem redBlack_plugAll_blacken {n : Nat} {t : Node α} {fs : List (Frame α)} (ht : Balanced n t) (hh : Hole n fs)
    (hp : t.isRed = true → ParentBlack fs) : RedBlack (plugAll t fs).blacken := by
  cases fs with
  | nil => exact redBlack_blacken ht
  | cons f fs =>
    have h := plugAll_spec ht hh fun hr => ⟨by simp, hp hr⟩
    rwa [blacken_of_black h.1]

theorem Short.balanced {n : Nat} {t : Node α} (h : Short n t) (ht : ¬ t.isRed = true) : Balanced n t := by
  rwa [Short, if_neg ht] at h

theorem Short.of_red {n : Nat} {t : Node α} (ht : t.isRed = true) (h : Balanced (n + 1) t.blacken) : Short n t := by
  rwa [Short, if_pos ht]

/-- Beside a red sibling the parent is black, and the sibling's children are. -/
theorem Hole.red_sibling {n : Nat} {p : Frame α} {fs : List (Frame α)} {wl wr : Node α} {wk : α} (h : Hole n (p :: fs))
    (hw : p.sibling = .node .red wl wk wr) :
    wl.isRed = false ∧ wr.isRed = false ∧ Balanced n wl ∧ Balanced n wr ∧ Hole (n + 1) fs := by
  cases hc : p.color with
  | black =>
    obtain ⟨hs, hh⟩ := (hole_black hc).1 h
    rw [hw] at hs
    exact ⟨hs.1, hs.2.1, hs.2.2.1, hs.2.2.2, hh⟩
  | red =>
    have hs := ((hole_red hc).1 h).2.1
    rw [hw] at hs
    cases hs

/-- The place below the parent once a red sibling `w` was rotated above it. -/
theorem hole_rotated {n : Nat} {p : Frame α} {fs : List (Frame α)} {wl wr : Node α} {wk : α} (h : Hole n (p :: fs))
    (hw : p.sibling = .node .red wl wk wr) : Hole n (⟨p.left, .black, wk, if p.left then wr else wl⟩ :: fs) := by
  obtain ⟨-, -, hwl, hwr, hh⟩ := h.red_sibling hw
  refine (hole_black (f := ⟨p.left, .black, wk, if p.left then wr else wl⟩) rfl).2 ⟨?_, hh⟩
  simp only
  split
  · exact hwr
  · exact hwl

/-- The near child of a red sibling. -/
theorem near_spec {n : Nat} {p : Frame α} {fs : List (Frame α)} {wl wr : Node α} {wk : α} (h : Hole n (p :: fs))
    (hw : p.sibling = .node .red wl wk wr) :
    Balanced n (if p.left then wl else wr) ∧ (if p.left then wl else wr).isRed = false := by
  obtain ⟨hwlb, hwrb, hwl, hwr, -⟩ := h.red_sibling hw
  split
  · exact ⟨hwl, hwlb⟩
  · exact ⟨hwr, hwrb⟩

/-- **The loop of `ngx_rbtree_delete`**: the subtree lacks one of the black nodes its place expects. -/
theorem fixup_spec (t : Node α) (fs : List (Frame α)) {n : Nat} (ht : Short n t) (hh : Hole (n + 1) fs) :
    RedBlack (fixup t fs) := by
  have hblack : ∀ {s : Node α} {P : Prop}, s.blacken.isRed = true → P := fun hr => by
    rw [isRed_blacken] at hr
    cases hr
  fun_induction fixup t fs generalizing n with
  | case1 t => exact ht.redBlack
  | case2 t p fs hred =>
    rw [Short, if_pos hred] at ht
    exact plugAll_spec ht hh hblack
  | case3 t p fs hred wl wk wr hw w f t' =>
    rename_i hfix
    obtain ⟨hwn, hwb⟩ := near_spec hh hw
    have hround := fixSibling_spec p.left .red p.key (ht.balanced hred) hwn hwb
    rw [hfix] at hround
    exact redBlack_plugAll_blacken hround (hole_rotated hh hw) fun _ g hg => by
      obtain rfl := Option.some.inj hg
      rfl
  | case4 t p fs hred wl wk wr hw w f t' =>
    rename_i hfix
    obtain ⟨hwn, hwb⟩ := near_spec hh hw
    have hround := fixSibling_spec p.left .red p.key (ht.balanced hred) hwn hwb
    rw [hfix] at hround
    exact plugAll_spec hround.2 (hole_rotated hh hw) hblack
  | case5 t p fs hred t' hw hfix =>
    cases hc : p.color with
    | black =>
      obtain ⟨hs, hh'⟩ := (hole_black hc).1 hh
      have hround := fixSibling_spec p.left p.color p.key (ht.balanced hred) hs (isRed_eq_false hw)
      rw [hfix, hc] at hround
      exact redBlack_plugAll_blacken hround.1 hh' fun hr => by
        rw [hround.2] at hr
        cases hr
    | red =>
      obtain ⟨hs, hsr, -, hpb, hh'⟩ := (hole_red hc).1 hh
      have hround := fixSibling_spec p.left p.color p.key (ht.balanced hred) hs hsr
      rw [hfix, hc] at hround
      exact redBlack_plugAll_blacken hround hh' fun _ => hpb
  | case6 t p fs hred t' hw hfix ih =>
    cases hc : p.color with
    | black =>
      obtain ⟨hs, hh'⟩ := (hole_black hc).1 hh
      have hround := fixSibling_spec p.left p.color p.key (ht.balanced hred) hs (isRed_eq_false hw)
      rw [hfix, hc] at hround
      exact ih (Short.of_balanced hround.1) hh'
    | red =>
      obtain ⟨hs, hsr, -, -, hh'⟩ := (hole_red hc).1 hh
      have hround := fixSibling_spec p.left p.color p.key (ht.balanced hred) hs hsr
      rw [hfix, hc] at hround
      exact ih (Short.of_red hround.1 hround.2) hh'

/-- The node that `ngx_rbtree_min` finds has no left child. -/
theorem fits_rbtreeMin (c : Color) (l : Node α) (k : α) (r : Node α) (fs : List (Frame α)) {n : Nat}
    (h : Fits n (.node c l k r) fs) :
    let m := rbtreeMin c l k r fs
    ∃ n', Fits n' (.node m.1.1 .sentinel m.1.2.1 m.1.2.2) m.2 := by
  fun_induction rbtreeMin c l k r fs generalizing n with
  | case1 c k r fs => exact ⟨n, h⟩
  | case2 c k r fs c' l' k' r' ih =>
    obtain ⟨m, hm⟩ := h.left k
    exact ih hm

theorem rbtreeMin_append (c : Color) (l : Node α) (k : α) (r : Node α) (fs gs : List (Frame α)) :
    rbtreeMin c l k r (fs ++ gs) = ((rbtreeMin c l k r fs).1, (rbtreeMin c l k r fs).2 ++ gs) := by
  fun_induction rbtreeMin c l k r fs with
  | case1 c k r fs => rfl
  | case2 c k r fs c' l' k' r' ih => exact ih

/-- A node with one child at most goes out: it is red, or its child lacks a black node. -/
theorem redBlack_unlink {n : Nat} {c : Color} {l r temp : Node α} {k : α} {fs : List (Frame α)}
    (h : Fits n (.node c l k r) fs) (htemp : l = .sentinel ∧ temp = r ∨ r = .sentinel ∧ temp = l) :
    RedBlack (if c = .red then plugAll temp fs else fixup temp fs) := by
  obtain ⟨m, hl, hr, hred, -⟩ := h.child
  have ht : Balanced m temp := by
    rcases htemp with ⟨-, rfl⟩ | ⟨-, rfl⟩
    · exact hr
    · exact hl
  split
  · rename_i hc
    subst hc
    have hn : Balanced n temp := by
      rcases htemp with ⟨-, rfl⟩ | ⟨-, rfl⟩
      · exact h.balanced.2.2.2
      · exact h.balanced.2.2.1
    refine plugAll_spec hn h.hole fun hrt => ?_
    rcases htemp with ⟨-, rfl⟩ | ⟨-, rfl⟩
    · rw [(hred rfl).2] at hrt
      cases hrt
    · rw [(hred rfl).1] at hrt
      cases hrt
  · rename_i hc
    cases c with
    | red => exact absurd rfl hc
    | black =>
      obtain ⟨m', rfl, hl', hr'⟩ := h.balanced
      have ht' : Balanced m' temp := by
        rcases htemp with ⟨-, rfl⟩ | ⟨-, rfl⟩
        · exact hr'
        · exact hl'
      exact fixup_spec _ _ (Short.of_balanced ht') h.hole

theorem redBlack_deleteAt {n : Nat} {c : Color} {l r : Node α} {k : α} {fs : List (Frame α)}
    (h : Fits n (.node c l k r) fs) : RedBlack (deleteAt c l r fs) := by
  have hone : ∀ temp : Node α, (l = .sentinel ∧ temp = r ∨ r = .sentinel ∧ temp = l) →
      RedBlack (if fs.isEmpty then temp.blacken else if c = .red then plugAll temp fs else fixup temp fs) := by
    intro temp htemp
    split
    · obtain ⟨m, hl, hr, -⟩ := h.child
      rcases htemp with ⟨-, rfl⟩ | ⟨-, rfl⟩
      · exact redBlack_blacken hr
      · exact redBlack_blacken hl
    · exact redBlack_unlink h htemp
  cases l with
  | sentinel => exact hone r (Or.inl ⟨rfl, rfl⟩)
  | node lc ll lk lr =>
    cases r with
    | sentinel => exact hone _ (Or.inr ⟨rfl, rfl⟩)
    | node rc rl rk rr =>
      -- the frame of the node itself has the key of the one that replaces it
      obtain ⟨m, hm⟩ := h.right (rbtreeMin rc rl rk rr []).1.2.1
      obtain ⟨n', hn'⟩ := fits_rbtreeMin rc rl rk rr _ hm
      have happ := rbtreeMin_append rc rl rk rr [] (⟨false, c, (rbtreeMin rc rl rk rr []).1.2.1,
        .node lc ll lk lr⟩ :: fs)
      rw [List.nil_append] at happ
      rw [happ] at hn'
      exact redBlack_unlink hn' (Or.inl ⟨rfl, rfl⟩)

/-! ### The node that is deleted -/

/-- The node at the end of a way down (`true` is left): its colour, children and key, and its parents. -/
def nodeAt : List Bool → Node α → List (Frame α) → Option ((Color × Node α × α × Node α) × List (Frame α))
  | _, .sentinel, _ => none
  | [], .node c l k r, fs => some ((c, l, k, r), fs)
  | true :: place, .node c l k r, fs => nodeAt place l (⟨true, c, k, r⟩ :: fs)
  | false :: place, .node c l k r, fs => nodeAt place r (⟨false, c, k, l⟩ :: fs)

/-- `ngx_rbtree_delete` for the node at `place`; without a node there it is not called. -/
def deleteNode (root : Node α) (place : List Bool) : Node α :=
  match nodeAt place root [] with
  | some ((c, l, _, r), fs) => deleteAt c l r fs
  | none => root

theorem around_nodeAt {place : List Bool} {t : Node α} {fs fs' : List (Frame α)} {c : Color} {l r : Node α} {k : α}
    (h : nodeAt place t fs = some ((c, l, k, r), fs')) : around fs' (l.toList ++ k :: r.toList) = around fs t.toList := by
  induction t generalizing place fs with
  | sentinel =>
    rw [nodeAt] at h
    cases h
  | node c₀ l₀ k₀ r₀ ihl ihr =>
    cases place with
    | nil =>
      simp only [nodeAt, Option.some.injEq, Prod.mk.injEq] at h
      obtain ⟨⟨rfl, rfl, rfl, rfl⟩, rfl⟩ := h
      rfl
    | cons left place =>
      cases left with
      | true => exact ihl h
      | false => exact ihr h

theorem fits_nodeAt {place : List Bool} {t : Node α} {fs fs' : List (Frame α)} {c : Color} {l r : Node α} {k : α} {n : Nat}
    (h : Fits n t fs) (hx : nodeAt place t fs = some ((c, l, k, r), fs')) : ∃ n', Fits n' (.node c l k r) fs' := by
  induction t generalizing place fs n with
  | sentinel =>
    rw [nodeAt] at hx
    cases hx
  | node c₀ l₀ k₀ r₀ ihl ihr =>
    cases place with
    | nil =>
      simp only [nodeAt, Option.some.injEq, Prod.mk.injEq] at hx
      obtain ⟨⟨rfl, rfl, rfl, rfl⟩, rfl⟩ := hx
      exact ⟨n, h⟩
    | cons left place =>
      cases left with
      | true =>
        obtain ⟨m, hm⟩ := h.left k₀
        exact ihl hm hx
      | false =>
        obtain ⟨m, hm⟩ := h.right k₀
        exact ihr hm hx

/-- The node's key is taken out of the sequence. -/
theorem toList_deleteNode {place : List Bool} {t : Node α} {fs : List (Frame α)} {c : Color} {l r : Node α} {k : α}
    (hx : nodeAt place t [] = some ((c, l, k, r), fs)) :
    ∃ a b, t.toList = a ++ k :: b ∧ (deleteNode t place).toList = a ++ b := by
  obtain ⟨a, b, hab⟩ := around_eq fs
  have ht : t.toList = around fs (l.toList ++ k :: r.toList) := (around_nodeAt hx).symm
  refine ⟨a ++ l.toList, r.toList ++ b, ?_, ?_⟩
  · rw [ht, hab]
    simp
  · rw [deleteNode, hx]
    simp only
    rw [toList_deleteAt, hab]
    simp

theorem deleteNode_of_none {place : List Bool} {t : Node α} (hx : nodeAt place t [] = none) : deleteNode t place = t := by
  rw [deleteNode, hx]

theorem sublist_deleteNode (t : Node α) (place : List Bool) : (deleteNode t place).toList.Sublist t.toList := by
  cases hx : nodeAt place t [] with
  | none => rw [deleteNode_of_none hx]
  | some x =>
    obtain ⟨⟨c, l, k, r⟩, fs⟩ := x
    obtain ⟨a, b, h1, h2⟩ := toList_deleteNode hx
    rw [h1, h2]
    exact (List.Sublist.refl a).append (List.sublist_cons_self k b)

theorem redBlack_deleteNode {t : Node α} (h : RedBlack t) (place : List Bool) : RedBlack (deleteNode t place) := by
  rw [deleteNode]
  cases hx : nodeAt place t [] with
  | none => exact h
  | some x =>
    obtain ⟨⟨c, l, k, r⟩, fs⟩ := x
    obtain ⟨n, hn⟩ := h.fits
    obtain ⟨n', hk⟩ := fits_nodeAt hn hx
    exact redBlack_deleteAt hk

/-! ## Height -/

/-- The nodes on the longest way down. -/
def Node.height : Node α → Nat
  | .sentinel => 0
  | .node _ l _ r => max l.height r.height + 1

/-- At most every other node on a way down is red. -/
theorem Balanced.height_le {n : Nat} {t : Node α} (h : Balanced n t) :
    t.height ≤ 2 * n + (if t.isRed then 1 else 0) := by
  induction t generalizing n with
  | sentinel => exact Nat.zero_le _
  | node c l k r ihl ihr =>
    rw [Node.height]
    cases c with
    | black =>
      obtain ⟨m, rfl, hl, hr⟩ := h
      have h1 := ihl hl
      have h2 := ihr hr
      simp only [Node.isRed]
      split at h1 <;> split at h2 <;> omega
    | red =>
      obtain ⟨hlr, hrr, hl, hr⟩ := h
      have h1 := ihl hl
      have h2 := ihr hr
      rw [hlr] at h1
      rw [hrr] at h2
      simp only [Node.isRed, if_true]
      simp only [Bool.false_eq_true, if_false] at h1 h2
      omega

/-- The black nodes alone make a full tree. -/
theorem Balanced.two_pow_le {n : Nat} {t : Node α} (h : Balanced n t) : 2 ^ n ≤ t.toList.length + 1 := by
  induction t generalizing n with
  | sentinel =>
    obtain rfl : n = 0 := h
    simp
  | node c l k r ihl ihr =>
    simp only [Node.toList, List.length_append, List.length_cons]
    cases c with
    | black =>
      obtain ⟨m, rfl, hl, hr⟩ := h
      have h1 := ihl hl
      have h2 := ihr hr
      rw [Nat.pow_succ]
      omega
    | red =>
      obtain ⟨-, -, hl, hr⟩ := h
      have h1 := ihl hl
      have h2 := ihr hr
      omega

theorem RedBlack.height_le {t : Node α} (h : RedBlack t) : t.height ≤ 2 * Nat.log 2 (t.toList.length + 1) := by
  obtain ⟨hr, n, hn⟩ := h
  have h1 := hn.height_le
  rw [hr] at h1
  have h2 : n ≤ Nat.log 2 (t.toList.length + 1) := Nat.le_log_of_pow_le (by omega) hn.two_pow_le
  simp only [Bool.false_eq_true, if_false] at h1
  omega

/-! ## Runs -/

section Runs

variable [LinearOrder α]

/-- The nodes whose keys `ngx_rbtree_lookup_4diversion` compares. -/
def visited (key : α) : Node α → List α
  | .sentinel => []
  | .node _ l k r => k :: if key < k then visited key l else if key > k then visited key r else []

theorem length_visited_le (key : α) (t : Node α) : (visited key t).length ≤ t.height := by
  induction t with
  | sentinel => exact Nat.zero_le _
  | node c l k r ihl ihr =>
    rw [visited, Node.height, List.length_cons]
    split
    · omega
    · split
      · omega
      · simp

inductive Op (α : Type)
  | insert (key : α)
  /-- The node at the end of a way down. -/
  | delete (place : List Bool)

/-- A tree, and the keys it should have: a deletion takes that of its node. -/
structure Tracked (α : Type) [LinearOrder α] where
  tree : NgxRbtree α
  keys : List α

def Tracked.keysWithout (s : Tracked α) (place : List Bool) : List α :=
  match nodeAt place s.tree.root [] with
  | some ((_, _, key, _), _) => s.keys.erase key
  | none => s.keys

def stepOp (s : Tracked α) : Op α → Tracked α
  | .insert key => ⟨ngxRbtreeInsert s.tree key, key :: s.keys⟩
  | .delete place =>
    { tree := ⟨deleteNode s.tree.root place, s.tree.ordered.sublist (sublist_deleteNode s.tree.root place)⟩
      keys := s.keysWithout place }

theorem keys_stepOp {s : Tracked α} (h : s.tree.keys.Perm s.keys) (op : Op α) :
    (stepOp s op).tree.keys.Perm (stepOp s op).keys := by
  cases op with
  | insert key =>
    obtain ⟨a, b, e, -, -, hc⟩ := toList_insertRoot s.tree.ordered key
    have hk : s.tree.keys = a ++ b := e
    change (insertRoot s.tree.root key).toList.Perm (key :: s.keys)
    rw [hc]
    exact List.perm_middle.trans ((hk ▸ h).cons key)
  | delete place =>
    change (deleteNode s.tree.root place).toList.Perm (s.keysWithout place)
    rw [Tracked.keysWithout]
    cases hx : nodeAt place s.tree.root [] with
    | none =>
      rw [deleteNode_of_none hx]
      exact h
    | some x =>
      obtain ⟨⟨c, l, key, r⟩, fs⟩ := x
      obtain ⟨a, b, h1, h2⟩ := toList_deleteNode hx
      have hkeys : (key :: (a ++ b)).Perm s.keys := by
        refine List.perm_middle.symm.trans ?_
        rw [← h1]
        exact h
      rw [h2]
      simpa using hkeys.erase key

theorem redBlack_stepOp {s : Tracked α} (h : RedBlack s.tree.root) (op : Op α) : RedBlack (stepOp s op).tree.root := by
  cases op with
  | insert key => exact redBlack_insertRoot h key
  | delete place => exact redBlack_deleteNode h place

open Trace in
/-- **Any run of insertions and deletions**, from an empty tree: the tree holds the keys that are
in the list of keys, in order, is red-black, and no search compares more than `2 log₂ (n + 1)` keys. -/
theorem rbtree_runs (ops : List (Op α)) :
    let s := run stepOp (⟨.init, []⟩ : Tracked α) ops
    s.tree.keys.Perm s.keys ∧ s.tree.keys.Pairwise (· ≤ ·) ∧ RedBlack s.tree.root ∧
      ∀ key, (visited key s.tree.root).length ≤ 2 * Nat.log 2 (s.tree.keys.length + 1) := by
  intro s
  have hC : Always stepOp (fun _ _ => True) (⟨.init, []⟩ : Tracked α) ops := always_of_forall _ (fun _ _ => trivial) _ _
  obtain ⟨hkeys, hrb⟩ : s.tree.keys.Perm s.keys ∧ RedBlack s.tree.root :=
    run_inv stepOp (I := fun s => s.tree.keys.Perm s.keys ∧ RedBlack s.tree.root)
      (fun _ op h _ => ⟨keys_stepOp h.1 op, redBlack_stepOp h.2 op⟩) ⟨List.Perm.refl _, rfl, 0, rfl⟩ hC
  exact ⟨hkeys, s.tree.ordered, hrb, fun key => (length_visited_le key _).trans hrb.height_le⟩

end Runs

end NgxPlus.Rbtree
