/-
Playing a history again, on the state it led to.

A history of a keyed store inserts rows that are not there, patches rows that are, and removes
rows. Played again, its operations are forgiving: an insert of a row that is there does
nothing, nor does a patch of one that is not. Then operations of the history can be played
again, and too early as well, as long as the history comes after them: where the last time
through is through the store is what one time leaves. Any number of readers can play it at
once, each from the start or from where another has been.

What is needed of the patches is that one that has been overwritten does not come back:
`p * q * p = p * q`. A patch that sets columns has this property, and it is the only thing
that is known of a patch here.

The induction does not follow the state, which may be anything while operations are played
out of their turn. It follows the mark, the place up to which the last time through has got,
and keeps that the rest of the history, from anywhere up to the mark, still leads to the end
(`Leads`). That an order of playing gets through is then a fact about numbers alone.

Nothing here names a particular program.
-/
import Mathlib.Algebra.Group.Action.Defs
import Mathlib.Data.List.Basic
import Mathlib.Data.List.Chain
import Mathlib.Data.List.Induction
import WalStream.Lib.Run

set_option autoImplicit false

namespace WalStream.Lib

/-! ## One row -/

/-- An operation, as one row sees it. -/
inductive CellOp (R P : Type*)
  | insert (r : R)
  | update (p : P)
  | remove
  | skip

namespace CellOp

variable {R P : Type*} [Monoid P] [MulAction P R]

def run : CellOp R P → Option R → Option R
  | .insert r, x => some (x.getD r)
  | .update p, x => x.map (p • ·)
  | .remove, _ => none
  | .skip, x => x

/-- The operation does what it says. -/
def Possible : CellOp R P → Option R → Prop
  | .insert _, x => x = none
  | .update _, x => x ≠ none
  | _, _ => True

def play (ops : List (CellOp R P)) (x : Option R) : Option R := ops.foldl (fun x op => op.run x) x

/-- Every operation of the history does what it says. -/
def Legal : List (CellOp R P) → Option R → Prop
  | [], _ => True
  | op :: ops, x => op.Possible x ∧ Legal ops (op.run x)

variable {ops ops' : List (CellOp R P)} {op : CellOp R P} {x y : Option R} {a r : R} {p : P}

@[simp] theorem play_nil : play ([] : List (CellOp R P)) x = x := rfl

@[simp] theorem play_cons : play (op :: ops) x = play ops (op.run x) := rfl

/-- Histories are played one part after the other. Nearly everything below cuts a history in two
at some place and asks what the later part does. -/
theorem play_append : play (ops ++ ops') x = play ops' (play ops x) := List.foldl_append

/-- The parts of a legal history are legal, each from where it begins. A part of it is what is
played again, so this is how its legality is used. -/
theorem Legal.append (h : Legal (ops ++ ops') x) : Legal ops x ∧ Legal ops' (play ops x) := by
  induction ops generalizing x with
  | nil => exact ⟨trivial, h⟩
  | cons op ops ih => exact ⟨⟨h.1, (ih h.2).1⟩, (ih h.2).2⟩

/-! ### What a part of a history does -/

/-- After a removal nothing depends on what was there. -/
theorem play_of_remove (h : .remove ∈ ops) (x y : Option R) : play ops x = play ops y := by
  induction ops generalizing x y with
  | nil => cases h
  | cons op ops ih =>
      rcases List.mem_cons.mp h with rfl | h
      · rfl
      · exact ih h _ _

/-- All patches of a part, the last one outermost. -/
def patches : List (CellOp R P) → P
  | [] => 1
  | .update p :: ops => patches ops * p
  | _ :: ops => patches ops

/-- Without a removal a row that is there is patched. -/
theorem play_some (h : .remove ∉ ops) (a : R) : play ops (some a) = some (patches ops • a) := by
  induction ops generalizing a with
  | nil => exact congrArg some (one_smul P a).symm
  | cons op ops ih =>
      rw [List.mem_cons, not_or] at h
      cases op with
      | insert r => exact ih h.2 a
      | update p =>
          rw [play_cons, patches, mul_smul]
          exact ih h.2 (p • a)
      | remove => exact absurd rfl h.1
      | skip => exact ih h.2 a

omit [MulAction P R] in
/-- A patch that a part contains makes no difference before it. -/
theorem patches_mul (hband : ∀ p q : P, p * q * p = p * q) (h : .update p ∈ ops) :
    patches ops * p = patches ops := by
  induction ops with
  | nil => cases h
  | cons op ops ih =>
      have hrest {q : P} (h : CellOp.update p ∈ ops) : patches ops * q * p = patches ops * q := by
        rw [← ih h, mul_assoc (patches ops), mul_assoc (patches ops), hband]
      cases op with
      | update q =>
          rcases List.mem_cons.mp h with heq | h
          · cases heq
            have hidem := hband p 1
            rw [mul_one] at hidem
            rw [patches, mul_assoc, hidem]
          · exact hrest h
      | insert r =>
          have hmem := (List.mem_cons.mp h).resolve_left fun h' => by cases h'
          exact ih hmem
      | remove =>
          have hmem := (List.mem_cons.mp h).resolve_left fun h' => by cases h'
          exact ih hmem
      | skip =>
          have hmem := (List.mem_cons.mp h).resolve_left fun h' => by cases h'
          exact ih hmem

/-- Nothing is inserted where a row is, before it is removed. -/
theorem Legal.no_insert (h : Legal ops (some a)) (hremove : .remove ∉ ops) : .insert r ∉ ops := by
  induction ops generalizing a with
  | nil => exact List.not_mem_nil
  | cons op ops ih =>
      rw [List.mem_cons, not_or] at hremove ⊢
      cases op with
      | insert r' => exact absurd h.1 (Option.some_ne_none a)
      | update p => exact ⟨(fun h' => by cases h'), ih h.2 hremove.2⟩
      | remove => exact absurd rfl hremove.1
      | skip => exact ⟨(fun h' => by cases h'), ih h.2 hremove.2⟩

/-- A part that inserts a row, and removes none, does the same where the row is already. -/
theorem Legal.play_insert (h : Legal ops x) (hremove : .remove ∉ ops) (hinsert : .insert r ∈ ops) :
    play ops (some r) = play ops none := by
  induction ops generalizing x with
  | nil => cases hinsert
  | cons op ops ih =>
      rw [List.mem_cons, not_or] at hremove
      rcases List.mem_cons.mp hinsert with rfl | hmem
      · rfl
      · cases op with
        | insert r' => exact absurd hmem (h.2.no_insert hremove.2)
        | update p =>
            obtain ⟨a, rfl⟩ := Option.ne_none_iff_exists'.mp h.1
            exact absurd hmem (h.2.no_insert hremove.2)
        | remove => exact absurd rfl hremove.1
        | skip => exact ih h.2 hremove.2 hmem

/-- **An operation that a part contains makes no difference before it**, where the part does
what it did in the history. By cases on the operation: a removal that comes again wipes out what
an early one did, an insert finds its row there either way, and a patch is overwritten, which is
what the law of the patches says. -/
theorem Legal.absorbs (hband : ∀ p q : P, p * q * p = p * q) (h : Legal ops x) (hop : op ∈ ops)
    (hy : play ops y = play ops x) : play ops (op.run y) = play ops x := by
  by_cases hremove : .remove ∈ ops
  · exact play_of_remove hremove _ _
  · cases op with
    | insert r =>
        cases y with
        | none => exact (h.play_insert hremove hop).trans hy
        | some a => exact hy
    | update p =>
        cases y with
        | none => exact hy
        | some a =>
            rw [play_some hremove] at hy
            refine (play_some hremove (p • a)).trans ?_
            rw [← mul_smul, patches_mul hband hop]
            exact hy
    | remove => exact absurd hop hremove
    | skip => exact hy

end CellOp

/-! ## Playing a history again -/

/-- What an operation does to the mark, which is where the last time through a history has got:
one at the mark or before it takes the mark to behind it, one beyond leaves the mark alone. -/
def advance (l i : Nat) : Nat := if i ≤ l then i + 1 else l

/-- Up to where the last time through a history has got. -/
def mark (played : List Nat) : Nat := played.foldl advance 0

/-- What has been played. -/
def replayed {α : Type*} (history : List α) (played : List Nat) : List α :=
  played.filterMap (history[·]?)

section

variable {α β : Type*} {i l : Nat} {played played' : List Nat} {history : List α}

/-- The mark is computed along what has been played, so one more operation advances it once. -/
theorem mark_append : mark (played ++ [i]) = advance (mark played) i := by
  simp [mark]

/-- Reading the history and mapping its entries can be exchanged. So one order of playing does
for the store and for each of its rows. -/
theorem replayed_map (f : α → β) (history : List α) (played : List Nat) :
    replayed (history.map f) played = (replayed history played).map f := by
  simp [replayed, List.map_filterMap]

/-- Nothing is played that is not in the history. -/
theorem mem_of_mem_replayed {x : α} (h : x ∈ replayed history played) : x ∈ history := by
  obtain ⟨i, _, hi⟩ := List.mem_filterMap.mp h
  exact List.mem_of_getElem? hi

/-- What is played in two parts. -/
theorem replayed_append : replayed history (played ++ played')
    = replayed history played ++ replayed history played' :=
  List.filterMap_append

/-- What is played with one more operation, named by its place. -/
theorem replayed_snoc (hi : i < history.length) :
    replayed history (played ++ [i]) = replayed history played ++ [history[i]] := by
  rw [replayed_append]
  simp [replayed, hi]

/-- A history that is longer has been played the same. -/
theorem replayed_grow {more : List α} (h : ∀ i ∈ played, i < history.length) :
    replayed (history ++ more) played = replayed history played :=
  List.filterMap_congr fun i hi => List.getElem?_append_left (h i hi)

/-- The numbers as a history of themselves, which is what `replayed` is computed from. -/
theorem replayed_range {n : Nat} (h : ∀ i ∈ played, i < n) :
    replayed (List.range n) played = played := by
  rw [replayed, List.filterMap_congr fun i hi => List.getElem?_range (h i hi)]
  exact List.filterMap_some

/-- No place is lost when all of them lie in the history. -/
theorem length_replayed (h : ∀ i ∈ played, i < history.length) :
    (replayed history played).length = played.length := by
  refine List.filterMap_length_eq_length.mpr fun i hi => ?_
  rw [List.getElem?_eq_getElem (h i hi)]
  rfl

/-- What is played in one place is found by the number that is played there. -/
theorem getElem?_replayed (h : ∀ i ∈ played, i < history.length) (j : Nat) :
    (replayed history played)[j]? = played[j]?.bind (history[·]?) := by
  induction played generalizing j with
  | nil => rfl
  | cons i played ih =>
      have hlt : i < history.length := h i (List.mem_cons_self ..)
      have hi : history[i]? = some history[i] := List.getElem?_eq_getElem hlt
      cases j with
      | zero => simp [replayed, hi]
      | succ j =>
          simp only [replayed, List.filterMap_cons, hi, List.getElem?_cons_succ]
          exact ih (fun i hi => h i (List.mem_cons_of_mem _ hi)) j

end

/-! ### Parts that make no difference -/

section

variable {A S : Type*} {act : S → A → S} {history : List A} {s y : S} {c i : Nat}

/-- From `y` the history from place `c` on leads to where all of it led from `s`. -/
def Leads (act : S → A → S) (history : List A) (s : S) (c : Nat) (y : S) : Prop :=
  (history.drop c).foldl act y = history.foldl act s

/-- An operation makes no difference before a part that contains it. -/
def Absorbing (act : S → A → S) (history : List A) (s : S) : Prop :=
  ∀ c y, ∀ a ∈ history.drop c, Leads act history s c y → Leads act history s c (act y a)

/-- From the beginning the whole history is still to come. -/
theorem leads_start : Leads act history s 0 s := rfl

/-- At the end there is nothing to come, and the state has to be the final one. -/
theorem leads_end : Leads act history s history.length y ↔ y = history.foldl act s := by
  rw [Leads, List.drop_length, List.foldl_nil]

/-- One operation of the history, taken. Leading there is kept when the next operation is played
and, read the other way, is not lost by playing it. -/
theorem leads_iff (hi : i < history.length) :
    Leads act history s i y ↔ Leads act history s (i + 1) (act y history[i]) := by
  rw [Leads, Leads, List.drop_eq_getElem_cons hi, List.foldl_cons]

/-- What comes from `c` on can be played before it. -/
theorem Absorbing.keeps (h : Absorbing act history s) (hi : i < history.length) (hci : c ≤ i)
    (hy : Leads act history s c y) : Leads act history s c (act y history[i]) := by
  refine h c y _ (List.mem_iff_getElem.mpr ⟨i - c, ?_, ?_⟩) hy
  · rw [List.length_drop]
    omega
  · rw [List.getElem_drop]
    congr 1
    omega

/-- **Playing on.** From wherever up to the mark, the history leads to its end. The induction is
on what has been played: an operation at or before the mark moves nothing the later part does
not restore, and one beyond it does not move the mark. -/
theorem Absorbing.leads (h : Absorbing act history s) {played : List Nat}
    (hplayed : ∀ i ∈ played, i < history.length) (hc : c ≤ mark played) :
    Leads act history s c ((replayed history played).foldl act s) := by
  induction played using List.reverseRecOn generalizing c with
  | nil =>
      obtain rfl : c = 0 := Nat.le_zero.mp hc
      exact leads_start
  | append_singleton played i ih =>
      have hi : i < history.length := hplayed i (by simp)
      replace ih : ∀ {c}, c ≤ mark played →
          Leads act history s c ((replayed history played).foldl act s) :=
        ih fun j hj => hplayed j (List.mem_append_left _ hj)
      rw [mark_append, advance] at hc
      rw [replayed_snoc hi, List.foldl_append]
      split at hc
      · rename_i him
        rcases Nat.lt_or_eq_of_le hc with hlt | rfl
        · have hci := Nat.le_of_lt_succ hlt
          exact h.keeps hi hci (ih (Nat.le_trans hci him))
        · exact (leads_iff hi).mp (ih him)
      · -- the operation is beyond the mark, which stays
        exact h.keeps hi (by omega) (ih hc)

/-- When the mark is at the end, so is what has been played. -/
theorem Absorbing.foldl_replayed (h : Absorbing act history s) {played : List Nat}
    (hplayed : ∀ i ∈ played, i < history.length) (hmark : mark played = history.length) :
    (replayed history played).foldl act s = history.foldl act s :=
  leads_end.mp (h.leads hplayed (Nat.le_of_eq hmark.symm))

end

/-! ### The mark -/

section

variable {order played : List Nat} {i c l l' n b p : Nat}

/-- A mark further on is not overtaken: the order of the marks is kept by every operation. -/
theorem advance_mono (h : l ≤ l') : advance l i ≤ advance l' i := by
  simp only [advance]
  split <;> split <;> omega

/-- And so by any number of them. -/
theorem foldl_advance_mono (h : l ≤ l') : order.foldl advance l ≤ order.foldl advance l' := by
  induction order generalizing l l' with
  | nil => exact h
  | cons i order ih => exact ih (advance_mono h)

/-- The mark stays in the history while the operations do. -/
theorem foldl_advance_le (h : ∀ i ∈ order, i < n) (hl : l ≤ n) : order.foldl advance l ≤ n := by
  induction order generalizing l with
  | nil => exact hl
  | cons i order ih =>
      refine ih (fun j hj => h j (List.mem_cons_of_mem _ hj)) ?_
      have := h i (List.mem_cons_self ..)
      simp only [advance]
      split <;> omega

/-- Where an operation comes, the marks that are not before it become one. -/
theorem foldl_advance_eq (hi : i ∈ order) (hl : i ≤ l) (hl' : i ≤ l') :
    order.foldl advance l = order.foldl advance l' := by
  induction order generalizing l l' with
  | nil => cases hi
  | cons j order ih =>
      rw [List.foldl_cons, List.foldl_cons]
      rcases List.mem_cons.mp hi with rfl | hi
      · rw [advance, advance, if_pos hl, if_pos hl']
      · by_cases hj : j ≤ l ∧ j ≤ l'
        · rw [advance, advance, if_pos hj.1, if_pos hj.2]
        · refine ih hi ?_ ?_
          · simp only [advance]
            split <;> omega
          · simp only [advance]
            split <;> omega

/-- The mark is played again like anything else. -/
theorem advance_absorbing (order : List Nat) (l : Nat) : Absorbing advance order l := by
  intro c y i hi hy
  by_cases hle : i ≤ y
  · rw [Leads, advance, if_pos hle, foldl_advance_eq hi (Nat.le_succ i) hle]
    exact hy
  · rwa [advance, if_neg hle]

/-- Wherever the mark is, an order that gets through does so from there. -/
theorem leads_of_mark (horder : ∀ i ∈ order, i < mark order) (hl : l ≤ mark order) :
    Leads advance order 0 0 l :=
  Nat.le_antisymm (foldl_advance_le horder hl) (foldl_advance_mono (Nat.zero_le l))

/-- What the mark has passed can be left out. -/
theorem leads_skip (horder : ∀ i ∈ order, i < mark order) (hl : l ≤ mark order)
    (hi : i < order.length) (hpassed : order[i] < l) (h : Leads advance order 0 i l) :
    Leads advance order 0 (i + 1) l := by
  rw [leads_iff hi, advance, if_pos (Nat.le_of_lt hpassed)] at h
  refine Nat.le_antisymm ?_ ?_
  · exact foldl_advance_le (fun j hj => horder j (List.mem_of_mem_drop hj)) hl
  · exact Nat.le_trans (Nat.le_of_eq h.symm) (foldl_advance_mono hpassed)

/-- Operations that are not before `c` do not take the mark to before `c`. -/
theorem le_foldl_advance (h : ∀ i ∈ order, c ≤ i) (hl : c ≤ l) : c ≤ order.foldl advance l := by
  induction order generalizing l with
  | nil => exact hl
  | cons i order ih =>
      refine ih (fun j hj => h j (List.mem_cons_of_mem _ hj)) ?_
      have := h i (List.mem_cons_self ..)
      simp only [advance]
      split <;> omega

/-- Operations in a row that begin at the mark or before it take it to behind them. -/
theorem add_le_foldl_range' (hl : b ≤ l) : b + p ≤ (List.range' b p).foldl advance l := by
  induction p generalizing b l with
  | zero => exact hl
  | succ p ih =>
      rw [List.range'_succ, List.foldl_cons, advance, if_pos hl, Nat.add_succ, ← Nat.succ_add]
      exact ih (Nat.le_refl _)

/-- Operations in a row are a stretch of the history, cut out by its ends. -/
theorem replayed_range' {α : Type*} {history : List α} (h : b + p ≤ history.length) :
    replayed history (List.range' b p) = (history.drop b).take p := by
  induction p generalizing b with
  | zero => rfl
  | succ p ih =>
      have hb : b < history.length := by omega
      rw [List.drop_eq_getElem_cons hb, List.take_succ_cons, ← ih (by omega), List.range'_succ]
      simp [replayed, hb]

/-! ### Without gaps -/

/-- The order begins with the first operation, and nothing in it is skipped: after an operation
comes the next one, or one that was there before. It may go back as far as it likes. -/
structure InTurn (order : List Nat) : Prop where
  first : ∀ i ∈ order.head?, i = 0
  next : order.IsChain fun i j => j ≤ i + 1

/-- Nothing played is in turn. -/
theorem InTurn.nil : InTurn [] := by
  refine ⟨fun i hi => ?_, List.IsChain.nil⟩
  cases hi

/-- An operation takes the mark at most to behind itself. -/
theorem advance_le (l i : Nat) : advance l i ≤ i + 1 := by
  simp only [advance]
  split <;> omega

/-- What is in turn at the mark is behind it afterwards. -/
theorem advance_of_le (h : i ≤ l) : advance l i = i + 1 := if_pos h

/-- Neighbours in an order that is in turn: the later one is at most the next one of the
history. It may be any earlier one, since going back is allowed. -/
theorem InTurn.le_of_succ (h : InTurn order) {j i' : Nat} (hi : order[j]? = some i)
    (hi' : order[j + 1]? = some i') : i' ≤ i + 1 := by
  obtain ⟨_, rfl⟩ := List.getElem?_eq_some_iff.mp hi
  obtain ⟨hlt, rfl⟩ := List.getElem?_eq_some_iff.mp hi'
  exact List.isChain_iff_getElem.mp h.next j hlt

/-- The mark is at most behind the last operation, so an order stays in turn when it goes on at
the mark or before it. -/
theorem InTurn.append_range' (h : InTurn order) (hb : b ≤ mark order) :
    InTurn (order ++ List.range' b p) := by
  refine ⟨fun i hi => ?_, List.isChain_append.mpr ⟨h.next, ?_, fun i hi j hj => ?_⟩⟩
  · cases order with
    | cons j order => exact h.first i hi
    | nil =>
        obtain rfl : b = 0 := Nat.le_zero.mp hb
        cases p with
        | zero => cases hi
        | succ p => exact (Option.some.inj hi).symm
  · exact (List.isChain_range' b p 1).imp fun i j hij => Nat.le_of_eq hij
  · obtain ⟨order, rfl⟩ := List.getLast?_eq_some_iff.mp hi
    rw [mark_append] at hb
    have hlast := hb.trans (advance_le _ i)
    cases p with
    | zero => cases hj
    | succ p =>
        obtain rfl := Option.some.inj hj
        exact hlast

end

namespace CellOp

variable {R P : Type*} [Monoid P] [MulAction P R]
variable {history : List (CellOp R P)} {x : Option R} {played : List Nat}

/-- **A legal history is played again for nothing.** -/
theorem Legal.absorbing (hband : ∀ p q : P, p * q * p = p * q) (h : Legal history x) :
    Absorbing (fun x op => op.run x) history x := by
  intro c y op hop hy
  have hparts : Legal (history.take c ++ history.drop c) x := by rwa [List.take_append_drop]
  have hend : play (history.drop c) (play (history.take c) x) = play history x := by
    rw [← play_append, List.take_append_drop]
  have hnow := hparts.append.2.absorbs hband hop (hy.trans hend.symm)
  exact hnow.trans hend

/-- When the mark is at the end the row is what it was. -/
theorem play_replayed (hband : ∀ p q : P, p * q * p = p * q) (hlegal : Legal history x)
    (hplayed : ∀ i ∈ played, i < history.length) (hmark : mark played = history.length) :
    play (replayed history played) x = play history x :=
  (hlegal.absorbing hband).foldl_replayed hplayed hmark

end CellOp

/-! ## The store -/

/-- An operation on the rows of a store. -/
inductive StoreOp (K R P : Type*)
  | insert (k : K) (r : R)
  | update (k : K) (p : P)
  | remove (k : K)
  | clear

namespace StoreOp

variable {K R P : Type*} [DecidableEq K]

/-- As the row of one key sees it. -/
def at_key (k : K) : StoreOp K R P → CellOp R P
  | .insert k' r => if k' = k then .insert r else .skip
  | .update k' p => if k' = k then .update p else .skip
  | .remove k' => if k' = k then .remove else .skip
  | .clear => .remove

variable [Monoid P] [MulAction P R]

def apply (op : StoreOp K R P) (s : K → Option R) : K → Option R := fun k => (op.at_key k).run (s k)

def play (ops : List (StoreOp K R P)) (s : K → Option R) : K → Option R :=
  ops.foldl (fun s op => op.apply s) s

def Legal (ops : List (StoreOp K R P)) (s : K → Option R) : Prop :=
  ∀ k, CellOp.Legal (ops.map (at_key k)) (s k)

/-- The rows of a store are played separately: what the store does at a key depends on nothing
but that key. All that is proved of one row holds of the store by this. -/
theorem play_apply (ops : List (StoreOp K R P)) (s : K → Option R) (k : K) :
    play ops s k = CellOp.play (ops.map (at_key k)) (s k) := by
  induction ops generalizing s with
  | nil => rfl
  | cons op ops ih => exact ih (op.apply s)

/-- **Replays converge.** However operations of a legal history have been played again, in
turn or out of turn, once the mark is at its end the store is as after the history. -/
theorem play_replayed (hband : ∀ p q : P, p * q * p = p * q) {history : List (StoreOp K R P)}
    {s : K → Option R} (hlegal : Legal history s) {played : List Nat}
    (h : ∀ i ∈ played, i < history.length) (hmark : mark played = history.length) :
    play (replayed history played) s = play history s := by
  funext k
  rw [play_apply, play_apply, ← replayed_map]
  rw [← List.length_map (at_key k)] at h hmark
  exact CellOp.play_replayed hband (hlegal k) h hmark

end StoreOp

/-! ## Readers -/

/-- Readers of one history. -/
structure Replay where
  /-- How many operations each reader has behind it. -/
  cursors : List Nat
  played : List Nat

inductive Turn
  /-- The reader plays the operation it is at. -/
  | play (w : Nat)
  /-- The reader goes back to `c`, or leaves the rest to another that starts there. -/
  | back (w c : Nat)
  /-- Another reader starts at `c`, which this one has reached. -/
  | join (w c : Nat)

namespace Replay

def initial : Replay := { cursors := [0], played := [] }

/-- One turn over a history of length `n`. -/
def step (n : Nat) (r : Replay) : Turn → Option Replay
  | .play w =>
      match r.cursors[w]? with
      | some i =>
          if i < n then some { cursors := r.cursors.set w (i + 1), played := r.played ++ [i] }
          else none
      | none => none
  | .back w c =>
      match r.cursors[w]? with
      | some i => if c ≤ i then some { r with cursors := r.cursors.set w c } else none
      | none => none
  | .join w c =>
      match r.cursors[w]? with
      | some i => if c ≤ i then some { r with cursors := r.cursors ++ [c] } else none
      | none => none

/-- Every reader has reached the end. -/
def Done (n : Nat) (r : Replay) : Prop := ∀ i ∈ r.cursors, i = n

instance (n : Nat) (r : Replay) : Decidable (r.Done n) :=
  inferInstanceAs (Decidable (∀ i ∈ r.cursors, i = n))

variable {n : Nat} {r r' : Replay} {turn : Turn}

/-- What a turn can do. -/
theorem step_cases (h : step n r turn = some r') :
    (∃ w i : Nat, r.cursors[w]? = some i ∧ i < n ∧
      r' = { cursors := r.cursors.set w (i + 1), played := r.played ++ [i] }) ∨
    ∃ w c i : Nat, r.cursors[w]? = some i ∧ c ≤ i ∧
      (r' = { r with cursors := r.cursors.set w c } ∨
        r' = { r with cursors := r.cursors ++ [c] }) := by
  cases turn with
  | play w =>
      cases hw : r.cursors[w]? with
      | none => simp [step, hw] at h
      | some i =>
          simp only [step, hw, Option.ite_none_right_eq_some, Option.some.injEq] at h
          exact .inl ⟨w, i, hw, h.1, h.2.symm⟩
  | back w c =>
      cases hw : r.cursors[w]? with
      | none => simp [step, hw] at h
      | some i =>
          simp only [step, hw, Option.ite_none_right_eq_some, Option.some.injEq] at h
          exact .inr ⟨w, c, i, hw, h.1, .inl h.2.symm⟩
  | join w c =>
      cases hw : r.cursors[w]? with
      | none => simp [step, hw] at h
      | some i =>
          simp only [step, hw, Option.ite_none_right_eq_some, Option.some.injEq] at h
          exact .inr ⟨w, c, i, hw, h.1, .inr h.2.symm⟩

/-- What has been played is of the history, and the mark is not behind all readers. -/
structure Caught (n : Nat) (r : Replay) : Prop where
  played : ∀ i ∈ r.played, i < n
  started : r.cursors ≠ []
  le_end : ∀ i ∈ r.cursors, i ≤ n
  le_mark : ∀ c, (∀ i ∈ r.cursors, c ≤ i) → c ≤ mark r.played

/-- One reader at the beginning, and nothing played. -/
theorem Caught.initial (n : Nat) : Caught n .initial := by
  refine ⟨fun i hi => absurd hi List.not_mem_nil, List.cons_ne_nil _ _, fun i hi => ?_,
    fun c hc => hc 0 (List.mem_singleton.mpr rfl)⟩
  rw [List.mem_singleton.mp hi]
  exact Nat.zero_le n

/-- Where one entry of a list is replaced, the others remain. -/
theorem eq_or_mem_set {l : List Nat} {w i j b : Nat} (hw : l[w]? = some i) (hj : j ∈ l) :
    j = i ∨ j ∈ l.set w b := by
  obtain ⟨v, hv, rfl⟩ := List.mem_iff_getElem.mp hj
  obtain ⟨hlt, rfl⟩ := List.getElem?_eq_some_iff.mp hw
  rcases eq_or_ne w v with rfl | hne
  · exact .inl rfl
  · refine .inr (List.mem_iff_getElem.mpr ⟨v, by rwa [List.length_set], ?_⟩)
    rw [List.getElem_set_ne hne]

/-- A reader that plays the next operation. If it was the one the mark waited for, the mark
moves on behind the operation; if not, the one it waits for is still there. -/
theorem Caught.play {w i : Nat} (h : r.Caught n) (hw : r.cursors[w]? = some i) (hi : i < n) :
    Caught n { cursors := r.cursors.set w (i + 1), played := r.played ++ [i] } := by
  have hlt := (List.getElem?_eq_some_iff.mp hw).1
  refine ⟨fun j hj => ?_, by simpa using h.started, fun j hj => ?_, fun c hc => ?_⟩
  · rcases List.mem_append.mp hj with hj | hj
    · exact h.played j hj
    · rwa [List.mem_singleton.mp hj]
  · rcases List.mem_or_eq_of_mem_set hj with hj | rfl
    · exact h.le_end j hj
    · exact hi
  · have hci : c ≤ i + 1 := hc _ (List.mem_set hlt _)
    rw [mark_append, advance]
    split
    · exact hci
    · -- a reader beyond the mark is not the last one
      rename_i hbeyond
      by_contra hcm
      refine Nat.not_succ_le_self (mark r.played) (h.le_mark _ fun j hj => ?_)
      rcases eq_or_mem_set hw hj with rfl | hj
      · omega
      · have := hc j hj
        omega

/-- The other turns change no state: a reader that starts anew begins at the start, and one that
takes over begins where another has been, so the mark is not behind it either. -/
theorem Caught.step (h : r.Caught n) (hstep : Replay.step n r turn = some r') : r'.Caught n := by
  obtain ⟨w, i, hw, hi, rfl⟩ | ⟨w, c', i, hw, hc', hr'⟩ := step_cases hstep
  · exact h.play hw hi
  · have hlt := (List.getElem?_eq_some_iff.mp hw).1
    have hle : c' ≤ n := Nat.le_trans hc' (h.le_end i (List.mem_of_getElem? hw))
    rcases hr' with rfl | rfl
    · refine ⟨h.played, by simpa using h.started, fun j hj => ?_, fun c hc => ?_⟩
      · rcases List.mem_or_eq_of_mem_set hj with hj | rfl
        · exact h.le_end j hj
        · exact hle
      · refine h.le_mark c fun j hj => ?_
        rcases eq_or_mem_set hw hj with rfl | hj
        · exact Nat.le_trans (hc c' (List.mem_set hlt _)) hc'
        · exact hc j hj
    · refine ⟨h.played, by simp, fun j hj => ?_, fun c hc => ?_⟩
      · rcases List.mem_append.mp hj with hj | hj
        · exact h.le_end j hj
        · rwa [List.mem_singleton.mp hj]
      · exact h.le_mark c fun j hj => hc j (List.mem_append_left _ hj)

/-- **Readers.** When all are through, so is the mark. -/
theorem caught_of_run {turns : List (Replay × Turn)} (hrun : Run (step n) .initial turns r) :
    r.Caught n :=
  Run.invariant (C := fun _ _ => True) (I := Caught n) (fun _ _ _ h _ hs => h.step hs)
    (.initial n) hrun fun _ _ => trivial

/-- With every reader at the end, the mark has no one left to wait for. -/
theorem Caught.mark_of_done (h : r.Caught n) (hdone : r.Done n) : mark r.played = n := by
  refine Nat.le_antisymm (foldl_advance_le h.played (Nat.zero_le n)) ?_
  exact h.le_mark n fun i hi => Nat.le_of_eq (hdone i hi).symm

end Replay

end WalStream.Lib
