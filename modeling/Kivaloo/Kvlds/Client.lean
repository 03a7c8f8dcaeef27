import Kivaloo.Kvlds.RangeSpec

/-!
# Iterating over a range of keys (lib/proto_kvlds/proto_kvlds_client.c)

`proto_kvlds_request_range2(Q, start, end, callback_item, callback, cookie)` walks the keys from
`start` below `end` (an empty `end` being the end of the key space) by RANGE requests: each
response's pairs go to `callback_item`, its next key becomes the new start, and `poke_range2`
issues another request while the start is below the end.  Nothing filters the pairs a response
carries, so the iteration hands out exactly what the server sends (`range2Loop_items`).

A stored key equal to the end comes back from the server (`dispatchRange_rangeEndPair`), and so
reaches `callback_item` although it is not below the end (`range2Loop_rangeEndPair`).
-/

namespace Kivaloo.Kvlds

open KVLDSKey

/-- `struct range2_cookie`; the callbacks, their cookie and the request queue are left out. -/
structure Range2Cookie where
  start : KVLDSKey
  /-- `C->end`. -/
  rangeEnd : KVLDSKey
  reqdone : Bool
  failed : Bool

/-- The test of `poke_range2`: a RANGE request is needed iff the start is below the end, except
that an empty end is the end of the key space (a request is needed unless a request was done and
the start is empty again), and never after a failure. -/
def pokeRange2Doreq (C : Range2Cookie) : Bool :=
  let doreq := decide (kvldskeyCmp C.start C.rangeEnd < 0)
  let doreq := if C.rangeEnd.len = 0 then !(C.reqdone && C.start.len == 0) else doreq
  if C.failed then false else doreq

/-- `poke_range2` and `callback_range2` with each RANGE request (of at most `0x100000` bytes)
answered by `serve`, `none` being a failed request, and at most `n` requests: the pairs passed
to `callback_item` in order, and whether the final callback was reached. -/
def range2Loop (serve : RangeRequest → Option RangeResponse) :
    ℕ → Range2Cookie → List (KVLDSKey × KVLDSKey) × Bool
  | 0, _ => ([], false)
  | n + 1, C =>
    if pokeRange2Doreq C then
      match serve ⟨C.start, C.rangeEnd, 0x100000⟩ with
      | some resp =>
        let r := range2Loop serve n { C with reqdone := true, start := resp.next }
        (resp.pairs ++ r.1, r.2)
      | none => range2Loop serve n { C with reqdone := true, failed := true }
    else ([], true)

/-- `proto_kvlds_request_range2(Q, start, end, ...)` with at most `n` requests. -/
def protoKvldsRequestRange2 (serve : RangeRequest → Option RangeResponse) (n : ℕ)
    (start rangeEnd : KVLDSKey) : List (KVLDSKey × KVLDSKey) × Bool :=
  range2Loop serve n ⟨start, rangeEnd, false, false⟩

/-- The iteration hands `callback_item` every pair of the first response, unfiltered, followed
by what the rest of the iteration hands out from the response's next key. -/
theorem range2Loop_items (serve : RangeRequest → Option RangeResponse) (n : ℕ)
    (C : Range2Cookie) (hreq : pokeRange2Doreq C = true) {resp : RangeResponse}
    (hresp : serve ⟨C.start, C.rangeEnd, 0x100000⟩ = some resp) :
    range2Loop serve (n + 1) C =
      (resp.pairs ++ (range2Loop serve n { C with reqdone := true, start := resp.next }).1,
        (range2Loop serve n { C with reqdone := true, start := resp.next }).2) := by
  rw [range2Loop, if_pos hreq, hresp]

/-- Iterating from `a` below `b` over the committed root with the separator `b` calls
`callback_item` for the pair of `b`, whatever order the leaves arrive in: the server sends it
with `b` as the next key, and the iteration stops there after one request. -/
theorem range2Loop_rangeEndPair (order : List Node → List Node)
    (horder : ∀ ls, (order ls).Perm ls) :
    SearchTree rangeRoot ∧
      protoKvldsRequestRange2 (fun R => dispatchRange 512 rangeRoot R order) 2
          (listKey [0x61]) (listKey [0x62]) =
        ([(listKey [0x61], listKey [0x31]), (listKey [0x62], listKey [0x32])], true) ∧
      ¬ listKey [0x62] < listKey [0x62] := by
  refine ⟨searchTree_rangeRoot, ?_, lt_irrefl _⟩
  -- the request covers both leaves, as in `dispatchRange_rangeEndPair`
  have hfound : btreeFindRange rangeRoot (listKey [0x61]) 1 = some (rangeRoot, empty) := rfl
  -- the budget allows 2048 leaves; the loop stops after the last child
  have hloop : gotnodeLoop (listKey [0x62]) [listKey [0x62]] [rangeLeaf₀, rangeLeaf₁] 2048 0 =
      ([rangeLeaf₀, rangeLeaf₁], 2) := rfl
  have hchild : btreeFindChild rangeRoot (listKey [0x61]) = 0 := rfl
  have hroot : rangeRoot.info.height = 1 ∧ rangeRoot.info.mlenT = 0 ∧
      rangeRoot.parentKeys = [listKey [0x62]] ∧ rangeRoot.children = [rangeLeaf₀, rangeLeaf₁] :=
    ⟨rfl, rfl, rfl, rfl⟩
  have hstarted : callbackRangeGotnode 512 ⟨listKey [0x61], listKey [0x62], 0x100000⟩ rangeRoot
      empty = some (⟨empty, 0, 0, 0, 2, []⟩, [rangeLeaf₀, rangeLeaf₁]) := by
    simp only [callbackRangeGotnode, hchild, hroot, Nat.reduceDiv, Nat.zero_add, Nat.sub_zero,
      Nat.reduceEqDiff, if_false, if_true, hloop]
    rfl
  have hserve : dispatchRange 512 rangeRoot ⟨listKey [0x61], listKey [0x62], 0x100000⟩ order =
      some ⟨2, listKey [0x62],
        [(listKey [0x61], listKey [0x31]), (listKey [0x62], listKey [0x32])]⟩ := by
    simp only [dispatchRange, hfound, hstarted, Option.bind_eq_bind, Option.bind_some]
    rcases List.perm_pair.mp (horder [rangeLeaf₀, rangeLeaf₁]) with h | h <;> rw [h] <;> rfl
  unfold protoKvldsRequestRange2
  rw [range2Loop_items _ 1 _ rfl hserve]
  rfl

theorem range2Loop_rangeEndPair_inOrder :
    (∀ ls : List Node, (id ls).Perm ls) ∧ SearchTree rangeRoot ∧
      protoKvldsRequestRange2 (fun R => dispatchRange 512 rangeRoot R id) 2
          (listKey [0x61]) (listKey [0x62]) =
        ([(listKey [0x61], listKey [0x31]), (listKey [0x62], listKey [0x32])], true) ∧
      ¬ listKey [0x62] < listKey [0x62] :=
  ⟨fun ls => List.Perm.refl ls, range2Loop_rangeEndPair id fun ls => List.Perm.refl ls⟩

end Kivaloo.Kvlds
