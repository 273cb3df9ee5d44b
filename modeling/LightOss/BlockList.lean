import Mathlib.Data.List.Basic
import Mathlib.Data.List.Infix
import Mathlib.Data.List.Flatten
import Mathlib.Data.List.Pairwise
import Mathlib.Data.List.TakeWhile

/-! # Block lists — a list whose equal keys stand together

    A list in which no other key stands between two of one key falls into blocks, one
    for each key (`exists_blocks`).  Cutting it where a value changes that is the same
    within a block cuts between blocks (`cut_flatten`), and collecting the elements of a
    key gives its block, so going through the keys goes through the blocks
    (`flatMap_firstKeys`).  Both go by induction on the blocks. -/

namespace BlockList

variable {α β γ : Type}

/-- A block has elements, and they agree on `f`. -/
structure Uniform (f : α → β) (block : List α) : Prop where
  ne_nil : block ≠ []
  agree : ∀ x ∈ block, ∀ y ∈ block, f x = f y

/-- Blocks, each with a key of its own. -/
structure Blocks (f : α → β) (blocks : List (List α)) : Prop where
  uniform : ∀ b ∈ blocks, Uniform f b
  distinct : blocks.Pairwise fun b b' => ∀ x ∈ b, ∀ y ∈ b', f x ≠ f y

/-- Nothing else stands between two elements of one key. -/
def Contiguous (f : α → β) (xs : List α) : Prop :=
  ∀ a b c, [a, b, c].Sublist xs → f a = f c → f b = f a

variable {f : α → β}

theorem Blocks.tail {b : List α} {blocks : List (List α)} (h : Blocks f (b :: blocks)) :
    Blocks f blocks :=
  ⟨fun b' hb' => h.uniform b' (List.mem_cons_of_mem _ hb'), (List.pairwise_cons.mp h.distinct).2⟩

theorem Blocks.sublist {blocks blocks' : List (List α)} (h : Blocks f blocks)
    (hsub : blocks'.Sublist blocks) : Blocks f blocks' :=
  ⟨fun b hb => h.uniform b (hsub.subset hb), h.distinct.sublist hsub⟩

/-- A block has all elements of its key. -/
theorem Blocks.mem_iff {blocks : List (List α)} (h : Blocks f blocks) {b : List α} (hb : b ∈ blocks)
    {x : α} (hx : x ∈ b) {y : α} : y ∈ b ↔ y ∈ blocks.flatten ∧ f y = f x := by
  constructor
  · exact fun hy => ⟨List.mem_flatten.mpr ⟨b, hb, hy⟩, (h.uniform b hb).agree y hy x hx⟩
  · rintro ⟨hy, heq⟩
    obtain ⟨b', hb', hy⟩ := List.mem_flatten.mp hy
    by_contra hnot
    have hne : b' ≠ b := fun hbb => hnot (hbb ▸ hy)
    have : Std.Symm fun b b' : List α => ∀ x ∈ b, ∀ y ∈ b', f x ≠ f y :=
      ⟨fun b b' hbb x hx y hy => (hbb y hy x hx).symm⟩
    exact h.distinct.forall hb' hb hne y hy x hx heq

/-- There are at most as many blocks as elements, since no block is empty. -/
theorem Blocks.length_le {blocks : List (List α)} (h : Blocks f blocks) :
    blocks.length ≤ blocks.flatten.length := by
  induction blocks with
  | nil => exact le_rfl
  | cons b rest ih =>
      have hb := List.length_pos_iff.mpr (h.uniform b List.mem_cons_self).ne_nil
      have hrest := ih h.tail
      rw [List.length_cons, List.flatten_cons, List.length_append]
      omega

/-- **Falling into blocks**, by induction on the length: the first block is as long as its
    key lasts, and its key does not come back. -/
theorem exists_blocks [DecidableEq β] : ∀ (n : Nat) (xs : List α), xs.length ≤ n →
    Contiguous f xs → ∃ blocks, xs = blocks.flatten ∧ Blocks f blocks := by
  intro n
  induction n with
  | zero =>
      intro xs hlen _
      rw [List.eq_nil_of_length_eq_zero (Nat.le_zero.mp hlen)]
      exact ⟨[], rfl, List.forall_mem_nil _, List.Pairwise.nil⟩
  | succ n ih =>
      intro xs hlen hcontiguous
      cases xs with
      | nil => exact ⟨[], rfl, List.forall_mem_nil _, List.Pairwise.nil⟩
      | cons a rest =>
          let p : α → Bool := fun x => decide (f x = f a)
          have hrest : rest = rest.takeWhile p ++ rest.dropWhile p :=
            List.takeWhile_append_dropWhile.symm
          have hsub : (rest.dropWhile p).Sublist (a :: rest) :=
            (List.dropWhile_sublist _).trans (List.sublist_cons_self _ _)
          have hlen' : (rest.dropWhile p).length ≤ n :=
            (List.length_dropWhile_le _ _).trans (Nat.le_of_succ_le_succ hlen)
          obtain ⟨blocks, hblocks, hgood⟩ := ih (rest.dropWhile p) hlen'
            fun x y z hxyz => hcontiguous x y z (hxyz.trans hsub)
          have hhead : ∀ x ∈ a :: rest.takeWhile p, f x = f a := by
            intro x hx
            rcases List.mem_cons.mp hx with rfl | hx
            · rfl
            · have hp : p x = true := List.mem_takeWhile_imp hx
              exact of_decide_eq_true hp
          -- the first element behind the block has another key, so none of that key follows it
          have hnever : ∀ y ∈ rest.dropWhile p, f y ≠ f a := by
            intro y hy heq
            cases hdrop : rest.dropWhile p with
            | nil =>
                rw [hdrop] at hy
                exact absurd hy List.not_mem_nil
            | cons h t =>
                have hh : f h ≠ f a := by
                  have hfalse : p h = false := by
                    have hhead := List.head?_dropWhile_not p rest
                    rwa [hdrop] at hhead
                  exact of_decide_eq_false hfalse
                rw [hdrop] at hy
                rcases List.mem_cons.mp hy with rfl | hy
                · exact hh heq
                · refine hh (hcontiguous a h y ?_ heq.symm)
                  refine List.Sublist.cons_cons a ?_
                  have htail : [h, y].Sublist (rest.dropWhile p) := by
                    rw [hdrop]
                    exact List.Sublist.cons_cons h (List.singleton_sublist.mpr hy)
                  exact htail.trans (List.dropWhile_sublist _)
          refine ⟨(a :: rest.takeWhile p) :: blocks, ?_, fun b hb => ?_, ?_⟩
          · rw [List.flatten_cons, ← hblocks, List.cons_append, ← hrest]
          · rcases List.mem_cons.mp hb with rfl | hb
            · exact ⟨List.cons_ne_nil _ _, fun x hx y hy => (hhead x hx).trans (hhead y hy).symm⟩
            · exact hgood.uniform b hb
          · refine List.pairwise_cons.mpr ⟨fun b hb x hx y hy heq => ?_, hgood.distinct⟩
            refine hnever y ?_ (heq.symm.trans (hhead x hx))
            rw [hblocks]
            exact List.mem_flatten.mpr ⟨b, hb, hy⟩

/-! ## Cutting between blocks -/

/-- A scan for a value that is the same within each block goes block by block. -/
theorem scan_flatten {p : α → Bool} : ∀ {blocks : List (List α)},
    (∀ b ∈ blocks, b ≠ [] ∧ ∀ x ∈ b, ∀ y ∈ b, p x = p y) →
      blocks.flatten.takeWhile p = (blocks.takeWhile fun b => b.all p).flatten
      ∧ blocks.flatten.dropWhile p = (blocks.dropWhile fun b => b.all p).flatten := by
  intro blocks
  induction blocks with
  | nil => exact fun _ => ⟨rfl, rfl⟩
  | cons b rest ih =>
      intro h
      obtain ⟨⟨hne, hagree⟩, hrest⟩ := List.forall_mem_cons.mp h
      obtain ⟨htake, hdrop⟩ := ih hrest
      cases hall : b.all p with
      | true =>
          have hp : ∀ x ∈ b, p x = true := List.all_eq_true.mp hall
          rw [List.flatten_cons, List.takeWhile_append_of_pos hp, List.dropWhile_append_of_pos hp,
            List.takeWhile_cons, List.dropWhile_cons, hall, if_pos rfl, if_pos rfl,
            List.flatten_cons,
            htake, hdrop]
          exact ⟨rfl, rfl⟩
      | false =>
          have hneg : ¬ b.all p = true := by rw [hall]; exact Bool.false_ne_true
          rw [List.takeWhile_cons, List.dropWhile_cons, hall, if_neg Bool.false_ne_true,
            if_neg Bool.false_ne_true]
          obtain ⟨x, t, rfl⟩ := List.exists_cons_of_ne_nil hne
          have hx : ¬ p x = true := by
            intro hx
            refine hneg (List.all_eq_true.mpr fun y hy => ?_)
            rw [hagree y hy x List.mem_cons_self, hx]
          rw [List.flatten_cons, List.cons_append, List.takeWhile_cons_of_neg hx,
            List.dropWhile_cons_of_neg hx]
          exact ⟨rfl, rfl⟩

/-- A cut where a value changes that is the same within each block is a cut between blocks. -/
theorem cut_flatten {g : α → γ} : ∀ {blocks : List (List α)},
    (∀ b ∈ blocks, Uniform g b) → ∀ {front : List α} {x : α} {back : List α},
      blocks.flatten = front ++ x :: back → (∀ a ∈ front.getLast?, g a ≠ g x) →
        ∃ done rest, blocks = done ++ rest ∧ front = done.flatten := by
  intro blocks
  induction blocks with
  | nil =>
      intro _ front x back heq _
      rw [List.flatten_nil] at heq
      exact absurd heq.symm (List.append_ne_nil_of_right_ne_nil _ (List.cons_ne_nil _ _))
  | cons b more ih =>
      intro h front x back heq hchange
      obtain ⟨hb, hmore⟩ := List.forall_mem_cons.mp h
      rw [List.flatten_cons] at heq
      -- the first block lies before the cut, or the cut is in it or at its end
      rcases List.append_eq_append_iff.mp heq with ⟨front', rfl, heq'⟩ | ⟨inner, hinner, heq'⟩
      · have hchange' : ∀ a ∈ front'.getLast?, g a ≠ g x := by
          intro a ha
          refine hchange a ?_
          rw [List.getLast?_append, Option.mem_def.mp ha]
          rfl
        obtain ⟨done, rest, hblocks, hfront⟩ := ih hmore heq' hchange'
        exact ⟨b :: done, rest, by rw [hblocks, List.cons_append],
          by rw [hfront, List.flatten_cons]⟩
      · -- the cut would lie within the block or at its end
        cases inner with
        | nil =>
            rw [List.append_nil] at hinner
            exact ⟨[b], more, rfl, by rw [← hinner, List.flatten_singleton]⟩
        | cons y inner =>
            rw [List.cons_append] at heq'
            obtain ⟨rfl, -⟩ := List.cons.inj heq'
            cases hlast : front.getLast? with
            | none => exact ⟨[], b :: more, rfl, List.getLast?_eq_none_iff.mp hlast⟩
            | some a =>
                refine absurd (hb.agree a ?_ x ?_) (hchange a hlast)
                · rw [hinner]
                  exact List.mem_append_left _ (List.mem_of_getLast? hlast)
                · rw [hinner]
                  exact List.mem_append_right _ List.mem_cons_self

/-! ## Collecting a key -/

variable [DecidableEq β]

/-- The keys in the order of their first elements. -/
def firstKeys (f : α → β) (keys : List β) (xs : List α) : List β :=
  xs.foldl (fun keys x => if f x ∈ keys then keys else keys ++ [f x]) keys

/-- Keys that are there already are not collected again. -/
theorem firstKeys_of_mem {keys : List β} : ∀ {xs : List α}, (∀ x ∈ xs, f x ∈ keys) →
    firstKeys f keys xs = keys := by
  intro xs
  induction xs with
  | nil => exact fun _ => rfl
  | cons x rest ih =>
      intro h
      obtain ⟨hx, hrest⟩ := List.forall_mem_cons.mp h
      rw [firstKeys, List.foldl_cons, if_pos hx]
      exact ih hrest

/-- Collecting goes through a list from left to right. -/
theorem firstKeys_append {keys : List β} (xs ys : List α) :
    firstKeys f keys (xs ++ ys) = firstKeys f (firstKeys f keys xs) ys := by
  rw [firstKeys, List.foldl_append]
  rfl

/-- A block adds its key. -/
theorem firstKeys_block {keys : List β} {b : List α} (hb : Uniform f b) {x : α} (hx : x ∈ b)
    (hnew : f x ∉ keys) : firstKeys f keys b = keys ++ [f x] := by
  obtain ⟨y, rest, rfl⟩ := List.exists_cons_of_ne_nil hb.ne_nil
  have hy : f y = f x := hb.agree y List.mem_cons_self x hx
  rw [firstKeys, List.foldl_cons, if_neg (hy ▸ hnew), hy]
  refine firstKeys_of_mem fun z hz => ?_
  rw [hb.agree z (List.mem_cons_of_mem _ hz) x hx]
  exact List.mem_append_right _ List.mem_cons_self

/-- **Collecting block by block**: going through the keys and taking the elements of each
    goes through the blocks. -/
theorem flatMap_firstKeys {δ : Type} (collect : List α → List δ) {blocks : List (List α)}
    (h : Blocks f blocks) :
    (firstKeys f [] blocks.flatten).flatMap
        (fun key => collect (blocks.flatten.filter fun x => decide (f x = key)))
      = blocks.flatMap collect := by
  -- filtering the whole list by a key of a block gives back that block
  have hfilter : ∀ (done rest : List (List α)) (b : List α), Blocks f (done ++ b :: rest) →
      ∀ x ∈ b, (done ++ b :: rest).flatten.filter (fun y => decide (f y = f x)) = b := by
    intro done rest b hblocks x hx
    obtain ⟨-, hright, hcross⟩ := List.pairwise_append.mp hblocks.distinct
    have hleft : done.flatten.filter (fun y => decide (f y = f x)) = [] := by
      refine List.filter_eq_nil_iff.mpr fun y hy hdec => ?_
      obtain ⟨b', hb', hy⟩ := List.mem_flatten.mp hy
      exact hcross b' hb' b List.mem_cons_self y hy x hx (of_decide_eq_true hdec)
    have hself : b.filter (fun y => decide (f y = f x)) = b :=
      List.filter_eq_self.mpr fun y hy => decide_eq_true
        ((hblocks.uniform b (List.mem_append_right _ List.mem_cons_self)).agree y hy x hx)
    have hlater : rest.flatten.filter (fun y => decide (f y = f x)) = [] := by
      refine List.filter_eq_nil_iff.mpr fun y hy hdec => ?_
      obtain ⟨b', hb', hy⟩ := List.mem_flatten.mp hy
      exact (List.pairwise_cons.mp hright).1 b' hb' x hx y hy (of_decide_eq_true hdec).symm
    rw [List.flatten_append, List.flatten_cons, List.filter_append, List.filter_append,
      hleft, hself,
      hlater, List.nil_append, List.append_nil]
  -- the keys so far are those of the blocks that are done
  have hgo : ∀ (rest done : List (List α)) (keys : List β), Blocks f (done ++ rest) →
      (∀ key ∈ keys, ∃ b ∈ done, ∃ x ∈ b, f x = key) →
      (firstKeys f keys rest.flatten).flatMap
          (fun key => collect ((done ++ rest).flatten.filter fun x => decide (f x = key)))
        = keys.flatMap
            (fun key => collect ((done ++ rest).flatten.filter fun x => decide (f x = key)))
          ++ rest.flatMap collect := by
    intro rest
    induction rest with
    | nil => exact fun done keys _ _ => (List.append_nil _).symm
    | cons b rest ih =>
        intro done keys hblocks hkeys
        have hb := hblocks.uniform b (List.mem_append_right _ List.mem_cons_self)
        obtain ⟨x, hx⟩ := List.exists_mem_of_ne_nil b hb.ne_nil
        -- a key belongs to one block, so that of `b` has not been collected
        have hnew : f x ∉ keys := by
          intro hmem
          obtain ⟨b', hb', y, hy, heq⟩ := hkeys _ hmem
          exact (List.pairwise_append.mp hblocks.distinct).2.2 b' hb' b List.mem_cons_self
            y hy x hx heq
        have hblock := hfilter done rest b hblocks x hx
        have hassoc : done ++ b :: rest = (done ++ [b]) ++ rest := by
          rw [List.append_assoc, List.singleton_append]
        have hnext := ih (done ++ [b]) (keys ++ [f x]) (hassoc ▸ hblocks) (by
          intro key hkey
          rcases List.mem_append.mp hkey with hkey | hkey
          · obtain ⟨b', hb', hx'⟩ := hkeys key hkey
            exact ⟨b', List.mem_append_left _ hb', hx'⟩
          · exact ⟨b, List.mem_append_right _ List.mem_cons_self, x, hx,
              (List.mem_singleton.mp hkey).symm⟩)
        rw [← hassoc] at hnext
        rw [List.flatten_cons, firstKeys_append, firstKeys_block hb hx hnew, hnext,
          List.flatMap_append,
          List.flatMap_singleton, hblock, List.append_assoc, List.flatMap_cons]
  have hall := hgo blocks [] [] h (List.forall_mem_nil _)
  rw [List.flatMap_nil, List.nil_append] at hall
  exact hall

end BlockList
