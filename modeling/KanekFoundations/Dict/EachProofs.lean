/-
  KanekFoundations.Dict.EachProofs — which entries `dict_each` and `dict_print_depth` get to.

  Both loops count the buckets by an `int`, up to `(int)d->nbuckets`. Below `2^31` buckets
  that is every bucket; at `2^31`, the size that growth ends at, it is none.

  Proved:
  - `each_may_delete`: below `2^31` buckets a callback that deletes keys as it is given
    them, whichever it likes, is called for every entry once, and leaves the others.
  - `visits_all_iff`: a callback that changes nothing, and the printing, get to every entry
    exactly when the table is smaller than that, or empty.
-/

import KanekFoundations.Dict.NodeProofs

namespace KanekFoundations.Dict.Nodes

open KanekFoundations.Lib KanekFoundations.Links

variable {K V U : Type} {hash : K → BitVec 32} {m m' : Mem K V} {d : Dict K V} {addrs : Nat → List Addr}
  {b : Nat} {e : Entry K V}

/-! ## The loop over the buckets -/

/-- The rule for the loop: `I i u s` is what holds before bucket `i`. -/
theorem forBucketsFrom_rule {body : U → Nat → M K V U} {n : Nat} (I : Nat → U → Mem K V → Prop)
    (hbound : ∀ i u s, I i u s → (i32 s.nbuckets.toNat).toNat = n)
    (hbody : ∀ i u s, i < n → I i u s → wp (body u i) (I (i + 1)) s) {k i : Nat} (hk : n < k + i) (hi : i ≤ n)
    {u : U} {s : Mem K V}
    (h : I i u s) : wp (forBucketsFrom body k i u) (I n) s := by
  induction k generalizing i u s with
  | zero => omega
  | succ k ih =>
    have hiff : (i : Int) < i32 s.nbuckets.toNat ↔ i < n := by rw [← Int.lt_toNat, hbound i u s h]
    unfold forBucketsFrom
    rw [wp_bind, wp_get]
    by_cases hlt : i < n
    · rw [if_pos (hiff.mpr hlt)]
      exact (hbody i u s hlt h).bind fun u' s' h' => ih (by omega) hlt h'
    · rw [if_neg (mt hiff.mp hlt), wp_pure, show n = i by omega]
      exact h

theorem i32_toNat_lt (x : Int) : (i32 x).toNat < 2 ^ 31 := by
  unfold i32
  split <;> omega

theorem forBuckets_rule {body : U → Nat → M K V U} {n : Nat} (I : Nat → U → Mem K V → Prop)
    (hbound : ∀ i u s, I i u s → (i32 s.nbuckets.toNat).toNat = n)
    (hbody : ∀ i u s, i < n → I i u s → wp (body u i) (I (i + 1)) s) {u : U} (h : I 0 u m) :
    wp (forBuckets body u) (I n) m := by
  have hn : n < 2 ^ 31 := hbound 0 u m h ▸ i32_toNat_lt _
  exact forBucketsFrom_rule I hbound hbody (by omega) (Nat.zero_le _) h

/-! ## A callback that deletes -/

/-- The callback notes the entry it is called with; then it deletes the key or not, which may
    depend on all calls so far. -/
def delWhere [DecidableEq K] (hash : K → BitVec 32) (choose : List (Entry K V) → Bool) (key : K) (val : Option V)
    (calls : List (Entry K V)) : M K V (List (Entry K V)) := do
  let calls := calls ++ [⟨key, val⟩]
  if choose calls then do
    let _ ← dictDel hash (some key)
    pure calls
  else pure calls

/-- The entries whose call did not delete. -/
def kept (choose : List (Entry K V) → Bool) (es : List (Entry K V)) : List (Entry K V) :=
  (List.range es.length).filterMap fun i => if choose (es.take (i + 1)) then none else es[i]?

theorem kept_append (choose : List (Entry K V) → Bool) (es : List (Entry K V)) (e : Entry K V) :
    kept choose (es ++ [e]) = kept choose es ++ if choose (es ++ [e]) then [] else [e] := by
  have hrange : List.range (es ++ [e]).length = List.range es.length ++ [es.length] := by
    rw [List.length_append]
    exact List.range_succ
  have htake : (es ++ [e]).take (es.length + 1) = es ++ [e] := List.take_of_length_le (by simp)
  unfold kept
  rw [hrange, List.filterMap_append]
  congr 1
  · apply List.filterMap_congr
    intro i hi
    have hlt := List.mem_range.mp hi
    rw [List.take_append_of_le_length (by omega), List.getElem?_append_left hlt]
  · rw [List.filterMap_cons, htake, List.getElem?_concat_length]
    by_cases hdel : choose (es ++ [e]) = true
    · rw [if_pos hdel, if_pos hdel]
      rfl
    · rw [if_neg hdel, if_neg hdel]
      rfl

theorem in_front {front back : List (List (Entry K V))} {chain : List (Entry K V)} :
    front.length < (front ++ chain :: back).length := by
  rw [List.length_append, List.length_cons]
  omega

theorem chainAt_front {front back : List (List (Entry K V))} {chain : List (Entry K V)} :
    chainAt (front ++ chain :: back) front.length = chain := by
  simp [chainAt]

theorem set_front {front back : List (List (Entry K V))} {chain chain' : List (Entry K V)} :
    (front ++ chain :: back).set front.length chain' = front ++ chain' :: back := by
  simp

/-- The loop is in the bucket behind `front`; of its chain, `todo` is still to come and `kc`
    is left of what has been. -/
structure Walking (hash : K → BitVec 32) (front back : List (List (Entry K V))) (nbuckets : BitVec 32)
    (kc todo : List (Entry K V)) (left : List Addr) (s : Mem K V) (count : Nat) (addrs : Nat → List Addr)
    (kn : List Addr) :
    Prop where
  inv : Inv hash (⟨front ++ (kc ++ todo) :: back, nbuckets, count⟩ : Dict K V)
  holds : Holds s ⟨front ++ (kc ++ todo) :: back, nbuckets, count⟩ addrs
  nodes : addrs front.length = kn ++ left
  passed : kn.length = kc.length

section
variable [DecidableEq K]

theorem walk_bucket (choose : List (Entry K V) → Bool) {front back : List (List (Entry K V))}
    {chain calls : List (Entry K V)}
    {n : BitVec 32} {count : Nat} (hi : Inv hash ⟨front ++ chain :: back, n, count⟩)
    (hh : Holds m ⟨front ++ chain :: back, n, count⟩ addrs) :
    wp (forEachSafe nextOf (fun u pos => do
        let e ← getEntry pos
        delWhere hash choose e.key e.val u) (m.head front.length) (m.count + 1) calls)
      (fun calls' m' => calls' = calls ++ chain ∧ ∃ kc count' addrs', Inv hash ⟨front ++ kc :: back, n, count'⟩ ∧
        Holds m' ⟨front ++ kc :: back, n, count'⟩ addrs' ∧ kept choose calls' = kept choose calls ++ kc) m := by
  have hfuel := hh.fuel hi in_front
  refine (forEachSafe_rule (fun calls' left s => s.buckets = m.buckets ∧ ∃ done todo kc count' addrs' kn,
    chain = done ++ todo ∧
    calls' = calls ++ done ∧ kept choose calls' = kept choose calls ++ kc ∧
      Walking hash front back n kc todo left s count' addrs' kn)
    ?_ ?_ hfuel ⟨rfl, [], chain, [], count, addrs, [], rfl, by simp, by simp, hi, hh, rfl, rfl⟩
    fun _ _ hy => hh.first in_front hy).mono fun calls' m' hend => ?_
  · intro calls' left s y post hI hy
    obtain ⟨hbuckets, done, todo, kc, count', addrs', kn, -, -, -, hw⟩ := hI
    have hhead : m.head front.length = s.head front.length := by rw [Mem.head, Mem.head, hbuckets]
    rw [hhead] at hy
    exact hw.holds.link in_front hw.nodes hy
  · intro calls' y left s hI
    obtain ⟨hbuckets, done, todo, kc, count', addrs', kn, hchain, hcalls, hkept, hw⟩ := hI
    have hhead : m.head front.length = s.head front.length := by rw [Mem.head, Mem.head, hbuckets]
    have hmem : y ∈ addrs' front.length := by rw [hw.nodes]; simp
    refine ⟨hhead ▸ hw.holds.not_head in_front in_front hmem, ?_⟩
    obtain ⟨cs, e, ds, hat, hcs, hentry, -⟩ := hw.holds.entry in_front hw.nodes
    -- The entry at `y` is the first to come.
    have hlen : kc.length = cs.length := by
      rw [← hw.passed]
      simpa using congrArg List.length hcs
    rw [show chainAt (front ++ (kc ++ todo) :: back) front.length = kc ++ todo from chainAt_front] at hat
    obtain ⟨rfl, rfl⟩ := List.append_inj hat hlen
    have hcalls' : calls' ++ [e] = calls ++ (done ++ [e]) := by rw [hcalls, List.append_assoc]
    rw [wp_bind, wp_getEntry hentry]
    unfold delWhere
    by_cases hdel : choose (calls' ++ [e]) = true
    · rw [if_pos hdel]
      refine (dictDel_at hw.inv hw.holds in_front hw.nodes chainAt_front hw.passed).bind fun rc s' hs' => wp_pure.mpr ?_
      obtain ⟨-, hbuckets', hinv, hholds⟩ := hs'
      rw [show (front ++ (kc ++ e :: ds) :: back).set front.length (kc ++ ds) = _ from set_front] at hinv hholds
      refine ⟨hbuckets'.trans hbuckets, done ++ [e], ds, kc, _, _, kn, by simp [hchain], hcalls', ?_, hinv, hholds,
        Function.update_self .., hw.passed⟩
      rw [kept_append, hkept, if_pos hdel, List.append_nil]
    · rw [if_neg hdel]
      have hsame : (kc ++ [e]) ++ ds = kc ++ e :: ds := by simp
      refine wp_pure.mpr ⟨hbuckets, done ++ [e], ds, kc ++ [e], count', addrs', kn ++ [y],
        by simp [hchain], hcalls', ?_,
        hsame ▸ hw.inv, hsame ▸ hw.holds, by simp [hw.nodes], by simp [hw.passed]⟩
      rw [kept_append, hkept, if_neg hdel, List.append_assoc]
  · obtain ⟨-, done, todo, kc, count', addrs', kn, hchain, hcalls, hkept, hw⟩ := hend
    have hlen := hw.holds.length in_front
    rw [hw.nodes, show chainAt (front ++ (kc ++ todo) :: back) front.length = kc ++ todo from chainAt_front,
      List.length_append, List.length_append, List.length_nil, hw.passed] at hlen
    obtain rfl : todo = [] := List.eq_nil_of_length_eq_zero (by omega)
    rw [List.append_nil] at hchain
    refine ⟨by rw [hcalls, hchain], kc, count', addrs', ?_, ?_, hkept⟩
    · simpa using hw.inv
    · simpa using hw.holds

/-- `dict_each` over a table of less than `2^31` buckets, with a callback that deletes some of
    the keys it is given: it is called for every entry there was, once, and no freed entry is
    touched. What is left is a table in order with the other entries. -/
theorem each_may_delete (hi : Inv hash d) (hh : Holds m d addrs) (hsmall : d.nbuckets.toNat < 2 ^ 31)
    (choose : List (Entry K V) → Bool) :
    wp (dictEach (delWhere hash choose) []) (fun calls m' => calls = d.entries ∧ ∃ d' addrs', Inv hash d' ∧
      Holds m' d' addrs' ∧
      d'.nbuckets = d.nbuckets ∧ d'.entries = kept choose d.entries ∧ m'.count = (kept choose d.entries).length) m := by
  have hbound : (i32 d.nbuckets.toNat).toNat = d.buckets.length := by
    rw [i32_of_lt (by omega) (by omega), Int.toNat_natCast, hi.size]
  unfold dictEach
  refine (forBuckets_rule (n := d.buckets.length) (fun i calls s => ∃ front count addrs', front.length = i ∧
    Inv hash ⟨front ++ d.buckets.drop i, d.nbuckets, count⟩ ∧
      Holds s ⟨front ++ d.buckets.drop i, d.nbuckets, count⟩ addrs' ∧
    calls = (d.buckets.take i).flatten ∧ kept choose calls = front.flatten) ?_ ?_
    ⟨[], d.count, addrs, rfl, hi, hh, rfl, rfl⟩).mono fun calls m' hend => ?_
  · intro i calls s hI
    obtain ⟨front, count, addrs', -, -, hholds, -⟩ := hI
    rw [hholds.nbuckets]
    exact hbound
  · intro i calls s hlt hI
    obtain ⟨front, count, addrs', rfl, hinv, hholds, hcalls, hkept⟩ := hI
    rw [List.drop_eq_getElem_cons hlt] at hinv hholds
    rw [wp_bind, wp_get]
    refine (walk_bucket choose hinv hholds).mono fun calls' s' hs' => ?_
    obtain ⟨hcalls', kc, count', addrs'', hinv', hholds', hkept'⟩ := hs'
    have hback : front ++ kc :: d.buckets.drop (front.length + 1) = (front ++ [kc]) ++
        d.buckets.drop (front.length + 1) := by
      simp
    refine ⟨front ++ [kc], count', addrs'', List.length_append, hback ▸ hinv', hback ▸ hholds', ?_, ?_⟩
    · rw [hcalls', hcalls, List.take_succ_eq_append_getElem hlt, List.flatten_append, List.flatten_singleton]
    · rw [hkept', hkept, List.flatten_append, List.flatten_singleton]
  · obtain ⟨front, count, addrs', hlen, hinv, hholds, hcalls, hkept⟩ := hend
    rw [List.drop_length, List.append_nil] at hinv hholds
    rw [List.take_length] at hcalls
    have hentries : (⟨front, d.nbuckets, count⟩ : Dict K V).entries = kept choose d.entries := by
      rw [Dict.entries, ← hkept, hcalls]
      rfl
    refine ⟨hcalls, _, addrs', hinv, hholds, rfl, hentries, ?_⟩
    rw [hholds.count, hinv.counted, hentries]

end

/-! ## A callback that changes nothing -/

def Mem.withPrinted (m : Mem K V) (p : List (Piece K V)) : Mem K V := { m with printed := p }

theorem Mem.withPrinted_printed (m : Mem K V) (p : List (Piece K V)) : (m.withPrinted p).printed = p := rfl

theorem Mem.withPrinted_again (m : Mem K V) (p q : List (Piece K V)) :
    (m.withPrinted p).withPrinted q = m.withPrinted q := rfl

theorem Holds.printed (hh : Holds m d addrs) (p : List (Piece K V)) : Holds (m.withPrinted p) d addrs :=
  ⟨hh.nbuckets, hh.count, hh.ring, hh.entries, hh.heads⟩

theorem printf_run (p : Piece K V) : printf p m = some ((), m.withPrinted (m.printed ++ [p])) := rfl

/-- What is done with an entry leaves the dictionary alone: it computes with what it carries
    along, and may print. -/
def Reads (act : Entry K V → U → M K V U) (g : U × List (Piece K V) → Entry K V → U × List (Piece K V)) : Prop :=
  ∀ e u s, act e u s = some ((g (u, s.printed) e).1, s.withPrinted (g (u, s.printed) e).2)

/-- The loops over a chain have been through `done`. -/
def Through (m : Mem K V) (g : U × List (Piece K V) → Entry K V → U × List (Piece K V)) (r : U × List (Piece K V))
    (done : List (Entry K V)) (u : U) (s : Mem K V) : Prop :=
  u = (done.foldl g r).1 ∧ s = m.withPrinted (done.foldl g r).2

section
variable {act : Entry K V → U → M K V U} {g : U × List (Piece K V) → Entry K V → U × List (Piece K V)}
    {r : U × List (Piece K V)}

theorem Through.step (ha : Reads act g) {done : List (Entry K V)} {u : U} {s : Mem K V} (h : Through m g r done u s)
    (e : Entry K V) : wp (act e u) (Through m g r (done ++ [e])) s := by
  obtain ⟨rfl, rfl⟩ := h
  refine (wp_run (ha e _ _)).mpr ⟨?_, ?_⟩
  · rw [List.foldl_append]
    rfl
  · rw [List.foldl_append]
    rfl

/-- The nodes `left` of the chain of bucket `b` are still to come. -/
def Along (m : Mem K V) (d : Dict K V) (addrs : Nat → List Addr) (b : Nat)
    (g : U × List (Piece K V) → Entry K V → U × List (Piece K V)) (r : U × List (Piece K V)) (u : U) (left : List Addr)
    (s : Mem K V) : Prop :=
  ∃ done todo ys, chainAt d.buckets b = done ++ todo ∧ addrs b = ys ++ left ∧ ys.length = done.length ∧
    Through m g r done u s

section
variable (hh : Holds m d addrs) (hb : b < d.buckets.length)
include hh hb

theorem Along.step (ha : Reads act g) {y : Addr} {left : List Addr} {u : U} {s : Mem K V}
    (h : Along m d addrs b g r u (y :: left) s) :
    y ≠ m.head b ∧ wp (do
        let e ← getEntry y
        act e u) (fun u' s' => Along m d addrs b g r u' left s') s := by
  obtain ⟨done, todo, ys, hchain, haddr, hlen, h⟩ := h
  obtain ⟨cs, e, ds, hat, hcs, hentry, -⟩ := hh.entry hb haddr
  have hlen' : done.length = cs.length := by
    rw [← hlen]
    simpa using congrArg List.length hcs
  obtain ⟨rfl, rfl⟩ := List.append_inj (hchain.symm.trans hat) hlen'
  have hentry' : s.nodes.rest y = some (some e) := by
    rw [h.2]
    exact hentry
  refine ⟨hh.not_head hb hb (haddr ▸ List.mem_append_right _ (List.mem_cons_self ..)), ?_⟩
  rw [wp_bind, wp_getEntry hentry']
  refine (h.step ha e).mono fun u' s' hs' => ⟨done ++ [e], ds, ys ++ [y], ?_, ?_, ?_, hs'⟩
  · rw [hchain, List.append_assoc]
    rfl
  · rw [haddr, List.append_assoc]
    rfl
  · rw [List.length_append, List.length_append, hlen]
    rfl

theorem Along.link {left post : List Addr} {y : Addr} {u : U} {s : Mem K V} (h : Along m d addrs b g r u left s)
    (hy : left ++ [m.head b] = y :: post) : ∃ z, nextOf y s = some (z, s) ∧ ∀ y' post',
      post = y' :: post' → z = y' := by
  obtain ⟨done, todo, ys, -, haddr, -, -, rfl⟩ := h
  exact (hh.printed _).link hb haddr hy

theorem Along.finish {u : U} {s : Mem K V} (h : Along m d addrs b g r u [] s) :
    Through m g r (chainAt d.buckets b) u s := by
  obtain ⟨done, todo, ys, hchain, haddr, hlen, h⟩ := h
  have hlen' := hh.length hb
  rw [hchain, haddr, List.append_nil, List.length_append, hlen] at hlen'
  obtain rfl : todo = [] := List.eq_nil_of_length_eq_zero (by omega)
  rw [hchain, List.append_nil]
  exact h

variable (hi : Inv hash d) (ha : Reads act g)
include hi ha

theorem forEachSafe_reads (u : U) :
    wp (forEachSafe nextOf (fun u pos => do
      let e ← getEntry pos
      act e u) (m.head b) (m.count + 1) u) (Through m g (u, m.printed) (chainAt d.buckets b)) m := by
  refine (forEachSafe_rule (Along m d addrs b g (u, m.printed)) (fun u left s y post h hy => h.link hh hb hy)
    (fun u y left s h => h.step hh hb ha) (hh.fuel hi hb) ⟨[], _, [], rfl, rfl, rfl, rfl, rfl⟩
    fun _ _ hy => hh.first hb hy).mono fun u' s' h => h.finish hh hb

theorem forEach_reads (u : U) :
    wp (forEach nextOf (fun u pos => do
      let e ← getEntry pos
      act e u) (m.head b) (m.count + 1) u) (Through m g (u, m.printed) (chainAt d.buckets b)) m := by
  refine (forEach_rule (Along m d addrs b g (u, m.printed)) (fun u y left s h => ?_) (hh.fuel hi hb)
    ⟨[], _, [], rfl, rfl, rfl, rfl, rfl⟩ fun _ _ hy => hh.first hb hy).mono fun u' s' h => h.finish hh hb
  obtain ⟨hne, hstep⟩ := h.step hh hb ha
  refine ⟨hne, hstep.mono fun u' s' hs' => ⟨hs', ?_⟩⟩
  -- The node the loop is at has not moved.
  obtain ⟨done, todo, ys, -, haddr, -⟩ := h
  obtain ⟨_, _, _, _, _, _, -, rfl⟩ := hs'
  exact (hh.printed _).link hb haddr rfl

end

/-- A loop over the buckets that goes through each chain goes through the entries of `visited`. -/
theorem forBuckets_reads (hi : Inv hash d) (hh : Holds m d addrs) {body : U → Nat → M K V U}
    (hbody : ∀ b < d.buckets.length, ∀ u p, wp (body u b) (Through m g (u, p) (chainAt d.buckets b)) (m.withPrinted p))
    (u : U) :
    forBuckets body u m = some ((d.visited.foldl g (u, m.printed)).1,
      m.withPrinted (d.visited.foldl g (u, m.printed)).2) := by
  have hle : (i32 d.nbuckets.toNat).toNat ≤ d.buckets.length := by
    have hlt := d.nbuckets.isLt
    rw [hi.size]
    unfold i32
    split <;> omega
  have hrun : wp (forBuckets body u) (Through m g (u, m.printed) d.visited) m := by
    refine forBuckets_rule (n := (i32 d.nbuckets.toNat).toNat)
      (fun i u' s => Through m g (u, m.printed) ((List.range i).flatMap (chainAt d.buckets)) u' s) ?_ ?_ ⟨rfl, rfl⟩
    · intro i u' s h
      rw [h.2]
      show (i32 m.nbuckets.toNat).toNat = _
      rw [hh.nbuckets]
    · intro i u' s hlt h
      obtain ⟨rfl, rfl⟩ := h
      refine (hbody i (by omega) _ _).mono fun u'' s'' h'' => ?_
      rw [List.range_succ, List.flatMap_append, List.flatMap_singleton, Through, List.foldl_append]
      exact h''
  obtain ⟨r, hr, hu, hs⟩ := hrun
  rw [hr, ← hu, ← hs]

end

/-! ## Which entries are visited -/

/-- Up to `INT_MAX` buckets all of them, from `2^31` on none: `(int)d->nbuckets` is negative. -/
theorem visited_eq (hi : Inv hash d) : d.visited = if d.nbuckets.toNat < 2 ^ 31 then d.entries else [] := by
  have hlt := d.nbuckets.isLt
  unfold visited
  split
  · rename_i hsmall
    rw [i32_of_lt (by omega) (by omega), Int.toNat_natCast, ← hi.size, List.flatMap_def]
    refine congrArg List.flatten (List.ext_getElem (by simp) fun i h1 h2 => ?_)
    rw [List.getElem_map, List.getElem_range]
    exact List.getD_eq_getElem _ _ h2
  · rename_i hlarge
    have hneg : (i32 d.nbuckets.toNat).toNat = 0 := by
      unfold i32
      split <;> omega
    rw [hneg]
    rfl

theorem visited_perm_iff (hi : Inv hash d) : d.visited.Perm d.entries ↔ d.nbuckets.toNat < 2 ^ 31 ∨ d.entries = [] := by
  rw [visited_eq hi]
  split
  · rename_i hsmall
    exact ⟨fun _ => .inl hsmall, fun _ => .refl _⟩
  · rename_i hlarge
    rw [List.nil_perm, or_iff_right hlarge]

/-- What is printed for an entry. -/
def itemPieces (depth : Int) (first : Bool) (e : Entry K V) : List (Piece K V) :=
  (if first = false then [.text ", "] else []) ++ [.text "\"", .key e.key, .text "\": ", .val e.val (depth + 1)]

/-- What is printed for a table whose loops come to the entries `es`. -/
def tablePieces (depth : Int) (es : List (Entry K V)) : List (Piece K V) :=
  let rec items : Bool → List (Entry K V) → List (Piece K V)
    | _, [] => []
    | first, e :: es => itemPieces depth first e ++ items false es
  .text "\x7b" :: items true es ++ [.text "\x7d"]

theorem items_fold (depth : Int) (es : List (Entry K V)) (first : Bool) (p : List (Piece K V)) :
    (es.foldl (fun r e => (false, r.2 ++ itemPieces depth r.1 e)) (first, p)).2 = p ++
    tablePieces.items depth first es := by
  induction es generalizing first p with
  | nil => rw [tablePieces.items, List.append_nil]; rfl
  | cons e es ih => rw [List.foldl_cons, ih, tablePieces.items, List.append_assoc]

theorem table_fold (depth : Int) (es : List (Entry K V)) (p : List (Piece K V)) :
    (es.foldl (fun r e => (false, r.2 ++ itemPieces depth r.1 e)) (true, p ++ [.text "\x7b"])).2 ++ [.text "\x7d"] =
      p ++ tablePieces depth es := by
  rw [items_fold, tablePieces, List.append_assoc, List.append_assoc, List.singleton_append, List.cons_append]

theorem dictEach_reads (hi : Inv hash d) (hh : Holds m d addrs) {fn : K → Option V → U → M K V U}
    {g : U × List (Piece K V) → Entry K V → U × List (Piece K V)} (ha : Reads (fun e => fn e.key e.val) g) (u : U) :
    dictEach fn u m = some ((d.visited.foldl g (u, m.printed)).1,
      m.withPrinted (d.visited.foldl g (u, m.printed)).2) := by
  refine forBuckets_reads hi hh (fun b hb u p => ?_) u
  rw [wp_bind, wp_get]
  exact forEachSafe_reads (hh.printed p) hb hi ha u

theorem printItem_reads (depth : Int) :
    Reads (fun (e : Entry K V) first => printItem depth first e) fun r e => (false, r.2 ++ itemPieces depth r.1 e) := by
  intro e first s
  cases first with
  | false =>
    show some (false, s.withPrinted (s.printed ++ [_] ++ [_] ++ [_] ++ [_] ++ [_])) = _
    simp [itemPieces]
  | true =>
    show some (false, s.withPrinted (s.printed ++ [_] ++ [_] ++ [_] ++ [_])) = _
    simp [itemPieces]

theorem dictPrintDepth_reads (hi : Inv hash d) (hh : Holds m d addrs) {depth : Int}
    (hdepth : depth ≤ Cfg.PRINT_MAX_DEPTH) :
    dictPrintDepth depth m = some ((), m.withPrinted (m.printed ++ tablePieces depth d.visited)) := by
  have hh' := hh.printed (m.printed ++ [.text "\x7b"])
  have hrun :
      wp (dictPrintDepth depth) (fun _ s => s = m.withPrinted (m.printed ++ tablePieces depth d.visited)) m := by
    unfold dictPrintDepth
    rw [if_neg (by omega), wp_bind, wp_run (printf_run _), wp_bind]
    refine (wp_run (forBuckets_reads (g := fun r e => (false, r.2 ++ itemPieces depth r.1 e)) hi hh'
      (fun b hb first p => ?_) true)).mpr ?_
    · rw [wp_bind, wp_get]
      exact forEach_reads (hh'.printed p) hb hi (printItem_reads depth) first
    · rw [wp_run (printf_run _)]
      rw [Mem.withPrinted_again, Mem.withPrinted_again, Mem.withPrinted_printed, Mem.withPrinted_printed, table_fold]
  obtain ⟨r, hr, hs⟩ := hrun
  rw [hr, ← hs]

/-- `dict_each` with a callback that changes nothing, and `dict_print_depth` within its depth,
    come to the same entries, in one order. These are all the entries, each once, exactly
    when there are less than `2^31` buckets or no entries. -/
theorem visits_all_iff (hi : Inv hash d) (hh : Holds m d addrs) :
    ∃ calls : List (Entry K V),
      (∀ (U : Type) (fn : K → Option V → U → M K V U) (g : U × List (Piece K V) → Entry K V → U × List (Piece K V)),
        Reads (fun e => fn e.key e.val) g → ∀ u, dictEach fn u m =
          some ((calls.foldl g (u, m.printed)).1, m.withPrinted (calls.foldl g (u, m.printed)).2)) ∧
      (∀ depth : Int, depth ≤ Cfg.PRINT_MAX_DEPTH →
        dictPrintDepth depth m = some ((), m.withPrinted (m.printed ++ tablePieces depth calls))) ∧
      (calls.Perm d.entries ↔ d.nbuckets.toNat < 2 ^ 31 ∨ d.entries = []) :=
  ⟨d.visited, fun _ _ _ ha u => dictEach_reads hi hh ha u, fun _ hdepth => dictPrintDepth_reads hi hh hdepth,
    visited_perm_iff hi⟩

/-! ## A table of four, and the largest -/

def keyHash (key : Nat) : BitVec 32 := BitVec.ofNat 32 key

/-- Keys 4 and 8 share bucket 0, key 1 is in bucket 1. -/
def four : Dict Nat Nat := ⟨[[⟨4, some 40⟩, ⟨8, none⟩], [⟨1, some 10⟩], [], []], 4, 3⟩

def fourMem : Mem Nat Nat where
  nodes a := [(160, ⟨320, 384, none⟩), (320, ⟨384, 160, some ⟨4, some 40⟩⟩), (384, ⟨160, 320, some ⟨8, none⟩⟩),
    (176, ⟨448, 448, none⟩), (448, ⟨176, 176, some ⟨1, some 10⟩⟩), (192, ⟨192, 192, none⟩),
    (208, ⟨208, 208, none⟩)].lookup a
  buckets := 160
  nbuckets := 4
  count := 3
  printed := []

def fourAddrs (b : Nat) : List Addr := [[320, 384], [448], [], []].getD b []

theorem four_inv : Inv keyHash four := ⟨⟨2, rfl⟩, by decide, rfl, by unfold Placed; decide, by decide, rfl⟩

theorem four_holds : Holds fourMem four fourAddrs := by
  refine ⟨rfl, rfl, fun b hb => ?_, by decide, by decide⟩
  have hjoin : ∀ b < 4, (fourMem.head b :: fourAddrs b).Nodup ∧
      (fourMem.head b :: fourAddrs b ++ [fourMem.head b]).IsChain fun a c => fourMem.nodes.next a = some c ∧
        fourMem.nodes.prev c = some a := by
    decide
  exact ⟨(hjoin b hb).1, (hjoin b hb).2⟩

/-- The callback deletes at its second call: key 8 goes. -/
theorem each_may_delete_four :
    ∃ m', dictEach (delWhere keyHash fun calls => calls.length = 2) [] fourMem =
      some ([⟨4, some 40⟩, ⟨8, none⟩, ⟨1, some 10⟩], m') ∧ m'.count = 2 := by
  obtain ⟨r, hr, hcalls, _, _, _, _, _, _, hcount⟩ :=
    each_may_delete four_inv four_holds (by decide) fun calls => calls.length = 2
  refine ⟨r.2, ?_, hcount⟩
  rw [hr]
  exact congrArg (fun calls => some (calls, r.2)) hcalls

/-- A callback that notes what it is called with. -/
theorem collect_reads :
    Reads (fun (e : Entry Nat Nat) calls => pure (calls ++ [⟨e.key, e.val⟩])) fun r e => (r.1 ++ [e], r.2) :=
  fun _ _ _ => rfl

theorem collect_fold (calls : List (Entry Nat Nat)) (r : List (Entry Nat Nat) × List (Piece Nat Nat)) :
    calls.foldl (fun r e => (r.1 ++ [e], r.2)) r = (r.1 ++ calls, r.2) := by
  induction calls generalizing r with
  | nil => simp
  | cons e calls ih => simp [ih]

theorem visits_all_iff_four :
    ∃ calls, dictEach (fun key val calls => pure (calls ++ [⟨key, val⟩])) ([] : List (Entry Nat Nat)) fourMem =
      some (calls, fourMem) ∧ calls.Perm four.entries := by
  obtain ⟨calls, heach, -, hiff⟩ := visits_all_iff four_inv four_holds
  refine ⟨calls, ?_, hiff.mpr (.inl (by decide))⟩
  rw [heach _ _ _ collect_reads, collect_fold]
  rfl

/-- Key 0 alone in a table of `2^31` buckets. -/
def largest : Dict Nat Nat := ⟨addTail (List.replicate (2 ^ 31) []) 0 ⟨0, none⟩, 2 ^ 31, 1⟩

def largestMem : Mem Nat Nat where
  nodes a := if a = 2 ^ 40 then some ⟨16, 16, some ⟨0, none⟩⟩ else if a = 16 then some ⟨2 ^ 40, 2 ^ 40, none⟩
    else if 16 ≤ a ∧ a < 2 ^ 36 ∧ a % 16 = 0 then some ⟨a, a, none⟩ else none
  buckets := 16
  nbuckets := 2 ^ 31
  count := 1
  printed := []

theorem largest_length : (List.replicate (2 ^ 31) ([] : List (Entry Nat Nat))).length = 2 ^ 31 := List.length_replicate

theorem largest_chain (b : Nat) : chainAt largest.buckets b = if b = 0 then [⟨0, none⟩] else [] := by
  have hempty : ∀ b, chainAt (List.replicate (2 ^ 31) ([] : List (Entry Nat Nat))) b = [] := by
    intro b
    unfold chainAt
    rw [List.getD_eq_getElem?_getD, List.getElem?_replicate]
    split <;> rfl
  unfold largest addTail
  rw [chainAt_set (by rw [largest_length]; decide), hempty, hempty]
  rfl

theorem largest_entries : largest.entries.Perm [⟨0, none⟩] := by
  refine (addTail_perm (by rw [largest_length]; decide)).trans ?_
  rw [List.flatten_replicate_nil]

theorem largest_inv : Inv keyHash largest := by
  refine ⟨⟨31, rfl⟩, by decide, ?_, ?_, ?_, ?_⟩
  · show (List.set _ _ _).length = 2 ^ 31
    rw [List.length_set, largest_length]
  · intro b hb e he
    rw [largest_chain] at he
    by_cases h0 : b = 0
    · rw [if_pos h0] at he
      rw [List.mem_singleton.mp he, h0]
      decide
    · rw [if_neg h0] at he
      cases he
  · exact (largest_entries.map Entry.key).nodup_iff.mpr (List.nodup_singleton _)
  · exact largest_entries.length_eq.symm

theorem largest_holds : Holds largestMem largest fun b => if b = 0 then [2 ^ 40] else [] := by
  have hlen : largest.buckets.length = 2 ^ 31 := by
    show (List.set _ _ _).length = 2 ^ 31
    rw [List.length_set, largest_length]
  have hhead : ∀ b, b < largest.buckets.length → b ≠ 0 →
      largestMem.nodes (largestMem.head b) = some ⟨largestMem.head b, largestMem.head b, none⟩ := by
    intro b hlt hb
    rw [hlen] at hlt
    have hentry : largestMem.head b ≠ 2 ^ 40 := fun heq => absurd (show 16 + 16 * b = 2 ^ 40 from heq) (by omega)
    have h16 : largestMem.head b ≠ 16 := fun heq => absurd (show 16 + 16 * b = 16 from heq) (by omega)
    have hin : 16 ≤ largestMem.head b ∧ largestMem.head b < 2 ^ 36 ∧ largestMem.head b % 16 = 0 :=
      show 16 ≤ 16 + 16 * b ∧ 16 + 16 * b < 2 ^ 36 ∧ (16 + 16 * b) % 16 = 0 by omega
    show (if _ then _ else _) = _
    rw [if_neg hentry, if_neg h16, if_pos hin]
  refine ⟨rfl, rfl, fun b hlt => ?_, fun b _ => ?_, fun b hlt => ?_⟩
  · by_cases hb : b = 0
    · subst hb
      have hjoin : (16 :: [2 ^ 40]).Nodup ∧ (16 :: [2 ^ 40] ++ [16]).IsChain fun a c =>
        largestMem.nodes.next a = some c ∧
          largestMem.nodes.prev c = some a := by
        decide
      exact ⟨hjoin.1, hjoin.2⟩
    · rw [if_neg hb]
      exact .nil (congrArg (Option.map Links.Entry.next) (hhead b hlt hb))
        (congrArg (Option.map Links.Entry.prev) (hhead b hlt hb))
  · rw [largest_chain]
    by_cases hb : b = 0
    · rw [if_pos hb, if_pos hb]
      rfl
    · rw [if_neg hb, if_neg hb]
      rfl
  · by_cases hb : b = 0
    · rw [hb]
      rfl
    · exact congrArg (Option.map Links.Entry.rest) (hhead b hlt hb)

/-- `(int)d->nbuckets` is `-2^31`: the entry is not visited. -/
theorem largest_not_visited : Inv keyHash largest ∧ (∃ addrs, Holds largestMem largest addrs) ∧
    largest.entries.Perm [⟨0, none⟩] ∧
    dictEach (fun key val calls => pure (calls ++ [⟨key, val⟩])) ([] : List (Entry Nat Nat)) largestMem = some
      ([], largestMem) := by
  refine ⟨largest_inv, ⟨_, largest_holds⟩, largest_entries, ?_⟩
  rw [dictEach_reads largest_inv largest_holds collect_reads, visited_eq largest_inv, if_neg (by decide)]
  rfl

end KanekFoundations.Dict.Nodes
