import Mtask.Http.Internal
import Mtask.Lib.FirstInfix

/-!
# Chunks in pieces

A chunked body is read the same in all pieces, if the lines before the chunks are short and their
sizes are not negative. A long line is refused if it comes in pieces, and a negative size takes
bytes off what was read so far.
-/

namespace Mtask.Http

open Lua List

section Sub

variable (s : Bytes) (n : ℕ)

theorem sub_take : sub s 1 n = s.take n := by
  have hlast : (min (posrelat n s.length) s.length).toNat = min n s.length := by
    rw [posrelat, if_pos (Int.natCast_nonneg n)]
    omega
  have hfirst : (max (posrelat 1 s.length) 1).toNat - 1 = 0 := by
    rw [posrelat, if_pos (by decide)]
    rfl
  rw [sub, hlast, hfirst, drop_zero, ← take_eq_take_min]

theorem sub_drop : sub s (n + 1) (-1) = s.drop n := by
  have hlast : (min (posrelat (-1) s.length) s.length).toNat = s.length := by
    rw [posrelat, if_neg (by decide)]
    split <;> omega
  have hfirst : (max (posrelat (n + 1) s.length) 1).toNat - 1 = n := by
    rw [posrelat, if_pos (by omega)]
    omega
  rw [sub, hlast, hfirst, take_length]

end Sub

/-! ### Chunks -/

/-- The result, with all that has not been used of the stream. -/
def outcome {α : Type*} (x : Except Error (Option (α × Bytes) × Reader)) :
    Except Error (Option (α × Bytes)) :=
  x.map fun (o, r) => o.map fun (a, body) => (a, body ++ r.rest)

/-- Two results that differ only in how much was read of the stream. -/
inductive Same {α : Type*} : Except Error (Option (α × Bytes) × Reader) →
    Except Error (Option (α × Bytes) × Reader) → Prop
  | error (e : Error) : Same (.error e) (.error e)
  | none (r r' : Reader) : Same (.ok (none, r)) (.ok (none, r'))
  | some (a : α) {body body' : Bytes} {r r' : Reader} (h : body ++ r.rest = body' ++ r'.rest) :
    Same (.ok (some (a, body), r)) (.ok (some (a, body'), r'))

theorem same_of_outcome {α : Type*} {x y : Except Error (Option (α × Bytes) × Reader)}
    (h : outcome x = outcome y) : Same x y := by
  match x, y, h with
  | .error e, .error e', h =>
    cases h
    exact .error e
  | .ok (none, r), .ok (none, r'), _ => exact .none r r'
  | .ok (some (a, body), r), .ok (some (a', body'), r'), h =>
    have h := Prod.ext_iff.1 (Option.some.inj (Except.ok.inj h))
    obtain rfl : a = a' := h.1
    exact .some a h.2

/-- The size of a chunk, and the stream behind its line. -/
def chunkLine (t : Bytes) : Except Error (Option (ℤ × Bytes)) :=
  match t.dropInfix? crlf with
  | some (line, t) => .ok ((tonumberBase line 16).map fun sz => (sz, t))
  | none => if 128 < t.length then .ok none else .error .socket

theorem chunksize_outcome (r : Reader) (body : Bytes)
    (hline : ∀ line t, (body ++ r.rest).dropInfix? crlf = some (line, t) → line.length < 128) :
    outcome (chunksize r body) = chunkLine (body ++ r.rest) := by
  fun_induction chunksize r body with
  | case1 r body line rest hcut =>
    rw [chunkLine, FirstInfix.append hcut]
    simp only [outcome, Except.map, Option.map_map]
    rfl
  | case2 r body hcut hlen =>
    have hnone : (body ++ r.rest).dropInfix? crlf = none := by
      cases hcut' : (body ++ r.rest).dropInfix? crlf with
      | none => rfl
      | some lt =>
        have h := hline lt.1 lt.2 hcut'
        have h' : body.length < lt.1.length + 2 := FirstInfix.length_lt hcut hcut'
        omega
    rw [chunkLine, hnone]
    have hlen' : 128 < (body ++ r.rest).length := by
      rw [length_append]
      omega
    simp only [if_pos hlen']
    rfl
  | case3 r body hcut hlen e hread =>
    unfold Reader.readbytes at hread
    split at hread
    next hrest =>
      cases hread
      rw [chunkLine, hrest, append_nil, hcut]
      simp only [if_neg hlen]
      rfl
    next => cases hread
  | case4 r body hcut hlen bytes r' hread ih =>
    have hrest := Reader.readbytes_eq hread
    rw [hrest, ← append_assoc] at hline ⊢
    exact ih hline

theorem same_chunksize {r r' : Reader} {body body' : Bytes} (h : body ++ r.rest = body' ++ r'.rest)
    (hline : ∀ line t, (body ++ r.rest).dropInfix? crlf = some (line, t) → line.length < 128) :
    Same (chunksize r body) (chunksize r' body') := by
  refine same_of_outcome ?_
  rw [chunksize_outcome r body hline, chunksize_outcome r' body' (h ▸ hline), h]

section Past

variable {body s : Bytes} {n : ℕ} (h : body.length ≤ n)

include h

theorem take_past : (body ++ s).take n = body ++ s.take (n - body.length) := by
  rw [take_append, take_of_length_le h]

theorem drop_past : (body ++ s).drop n = s.drop (n - body.length) := by
  rw [drop_append, drop_of_length_le h, nil_append]

end Past

theorem chunkdata_eq (r : Reader) (n : ℕ) (body : Bytes) :
    (chunkdata r n body).map (fun x => (x.1, x.2.1 ++ x.2.2.rest)) =
      if n ≤ (body ++ r.rest).length then .ok ((body ++ r.rest).take n, (body ++ r.rest).drop n)
      else .error .socket := by
  unfold chunkdata
  by_cases hle : n ≤ body.length
  · rw [if_pos (by omega), if_pos (by rw [length_append]; omega), sub_take, sub_drop,
      take_append_of_le_length hle, drop_append_of_le_length hle]
    rfl
  · have hlen : ((n : ℤ) - body.length).toNat = n - body.length := by omega
    rw [if_neg (by omega), hlen, Reader.read]
    by_cases hrest : n - body.length ≤ r.rest.length
    · rw [if_pos hrest, if_pos (by rw [length_append]; omega), take_past (by omega),
        drop_past (by omega)]
      rfl
    · rw [if_neg hrest, if_neg (by rw [length_append]; omega)]
      rfl

theorem readcrln_eq (r : Reader) (body : Bytes) :
    (readcrln r body).map (fun x => x.1.map (· ++ x.2.rest)) =
      if (body ++ r.rest).length < 2 then .error .socket
      else .ok (if (body ++ r.rest).take 2 = crlf then some ((body ++ r.rest).drop 2) else none) := by
  unfold readcrln
  by_cases hle : 2 ≤ body.length
  · have htake : sub body 1 2 = (body ++ r.rest).take 2 := by
      rw [take_append_of_le_length hle]
      exact sub_take body 2
    have hdrop : sub body 3 (-1) ++ r.rest = (body ++ r.rest).drop 2 := by
      rw [drop_append_of_le_length hle, ← sub_drop body 2]
      rfl
    have hlen : ¬(body ++ r.rest).length < 2 := by
      rw [length_append]
      omega
    rw [if_pos hle, if_neg hlen, htake]
    by_cases hcrlf : (body ++ r.rest).take 2 = crlf
    · rw [if_neg (not_not.2 hcrlf), if_pos hcrlf, ← hdrop]
      rfl
    · rw [if_pos hcrlf, if_neg hcrlf]
      rfl
  · rw [if_neg hle, Reader.read]
    by_cases hrest : 2 - body.length ≤ r.rest.length
    · have htake := take_past (s := r.rest) (show body.length ≤ 2 by omega)
      have hdrop := drop_past (s := r.rest) (show body.length ≤ 2 by omega)
      rw [if_pos hrest, if_neg (by rw [length_append]; omega)]
      simp only [← htake]
      by_cases hcrlf : (body ++ r.rest).take 2 = crlf
      · rw [if_neg (not_not.2 hcrlf), if_pos hcrlf, hdrop]
        rfl
      · rw [if_pos hcrlf, if_neg hcrlf]
        rfl
    · rw [if_neg hrest, if_pos (by rw [length_append]; omega)]
      rfl

/-! ### What was read -/

section Read

variable {r r' : Reader} {body body' bytes : Bytes}

theorem chunksize_ok {sz : ℤ}
    (hline : ∀ line t, (body ++ r.rest).dropInfix? crlf = some (line, t) → line.length < 128)
    (h : chunksize r body = .ok (some (sz, body'), r')) :
    ∃ line, (body ++ r.rest).dropInfix? crlf = some (line, body' ++ r'.rest) ∧
      tonumberBase line 16 = some sz := by
  have houtcome := chunksize_outcome r body hline
  rw [h, chunkLine] at houtcome
  cases hcut : (body ++ r.rest).dropInfix? crlf with
  | none =>
    rw [hcut] at houtcome
    dsimp only at houtcome
    split at houtcome <;> cases houtcome
  | some lt =>
    rw [hcut] at houtcome
    obtain ⟨sz', hnum, heq⟩ := Option.map_eq_some_iff.1 (Except.ok.inj houtcome).symm
    obtain ⟨rfl, ht⟩ := Prod.ext_iff.1 heq
    refine ⟨lt.1, ?_, hnum⟩
    rw [← show lt.2 = body' ++ r'.rest from ht]

theorem chunkdata_ok {n : ℕ} (h : chunkdata r n body = .ok (bytes, body', r')) :
    body ++ r.rest = bytes ++ (body' ++ r'.rest) ∧ bytes.length = n := by
  have heq := chunkdata_eq r n body
  rw [h] at heq
  split at heq
  next hn =>
    have heq := Prod.ext_iff.1 (Except.ok.inj heq)
    rw [show bytes = _ from heq.1, show body' ++ r'.rest = _ from heq.2]
    exact ⟨(take_append_drop n _).symm, by rw [length_take]; omega⟩
  next => cases heq

theorem readcrln_ok (h : readcrln r body = .ok (some body', r')) :
    body ++ r.rest = crlf ++ (body' ++ r'.rest) := by
  have heq := readcrln_eq r body
  rw [h] at heq
  split at heq
  · cases heq
  next =>
    have heq := Except.ok.inj heq
    split at heq
    next hcrlf =>
      rw [← hcrlf, show body' ++ r'.rest = _ from Option.some.inj heq, take_append_drop]
    next => cases heq

end Read

theorem cases_of_map {α β : Type*} {x y : Except Error α} {f : α → β} (h : x.map f = y.map f) :
    (∃ e, x = .error e ∧ y = .error e) ∨ ∃ a b, x = .ok a ∧ y = .ok b ∧ f a = f b := by
  match x, y, h with
  | .error e, .error e', h =>
    cases h
    exact .inl ⟨e, rfl, rfl⟩
  | .ok a, .ok b, h => exact .inr ⟨a, b, rfl, rfl, Except.ok.inj h⟩

/-- The loop of `recvchunkedbody`, without the proof that it ends. -/
theorem recvchunks_eq (r : Reader) (bodylimit : Option Number) (result : Bytes) (size : ℤ)
    (body : Bytes) : recvchunks r bodylimit result size body =
      match chunksize r body with
      | .error e => .error e
      | .ok (none, r₁) => .ok (none, r₁)
      | .ok (some (sz, body₁), r₁) =>
        if sz = 0 then .ok (some (result, body₁), r₁)
        else if exceeds bodylimit (.integer (wrap (size + sz))) then .ok (none, r₁)
        else
          match chunkdata r₁ sz body₁ with
          | .error e => .error e
          | .ok (bytes, body₂, r₂) =>
            match readcrln r₂ body₂ with
            | .error e => .error e
            | .ok (none, r₃) => .ok (none, r₃)
            | .ok (some body₃, r₃) =>
              recvchunks r₃ bodylimit (result ++ bytes) (wrap (size + sz)) body₃ := by
  rw [recvchunks]
  split
  next heq => rw [heq]
  next heq => rw [heq]
  next sz body₁ r₁ heq =>
    rw [heq]
    dsimp only
    split
    · rfl
    split
    · rfl
    split
    next heq => rw [heq]
    next bytes body₂ r₂ heq =>
      rw [heq]
      dsimp only
      split <;>
      next heq => rw [heq]

/-- The chunks of a stream are read the same in all pieces: up to the end, or to where they are
refused for the limit, the lines before the chunks are short and no size is negative. -/
inductive Fits (bodylimit : Option Number) : ℤ → Bytes → Prop
  | intro {size : ℤ} {t : Bytes}
    (hline : ∀ line t', t.dropInfix? crlf = some (line, t') → line.length < 128)
    (hsz : ∀ line t' sz, t.dropInfix? crlf = some (line, t') → tonumberBase line 16 = some sz → 0 ≤ sz)
    (hnext : ∀ line data t' (sz : ℤ), t.dropInfix? crlf = some (line, data ++ crlf ++ t') →
      tonumberBase line 16 = some sz → sz = data.length → sz ≠ 0 →
      exceeds bodylimit (.integer (wrap (size + sz))) = false → Fits bodylimit (wrap (size + sz)) t') :
    Fits bodylimit size t

variable {bodylimit : Option Number} {size : ℤ}

theorem same_recvchunks {t : Bytes} (hfits : Fits bodylimit size t) {r r' : Reader}
    {body body' : Bytes} (h : body ++ r.rest = t) (h' : body' ++ r'.rest = t) (result : Bytes) :
    Same (recvchunks r bodylimit result size body) (recvchunks r' bodylimit result size body') := by
  induction hfits generalizing r r' body body' result with
  | @intro size t hline hsz hnext ih =>
    have hsame := same_chunksize (h.trans h'.symm) (h ▸ hline)
    rw [recvchunks_eq r, recvchunks_eq r']
    generalize hx : chunksize r body = x at hsame ⊢
    generalize chunksize r' body' = y at hsame ⊢
    cases hsame with
    | error e => exact .error e
    | none r₁ r₁' => exact .none r₁ r₁'
    | @some sz body₁ body₁' r₁ r₁' h₁ =>
      dsimp only
      obtain ⟨line, hcut, hnum⟩ := chunksize_ok (h ▸ hline) hx
      rw [h] at hcut
      by_cases hzero : sz = 0
      · rw [if_pos hzero, if_pos hzero]
        exact .some result h₁
      rw [if_neg hzero, if_neg hzero]
      by_cases hexceeds : exceeds bodylimit (.integer (wrap (size + sz))) = true
      · rw [if_pos hexceeds, if_pos hexceeds]
        exact .none r₁ r₁'
      rw [if_neg hexceeds, if_neg hexceeds]
      obtain ⟨n, rfl⟩ := Int.eq_ofNat_of_zero_le (hsz line _ sz hcut hnum)
      have hdata := chunkdata_eq r₁ n body₁
      have hdata' := chunkdata_eq r₁' n body₁'
      rw [← h₁, ← hdata] at hdata'
      rcases cases_of_map hdata' with ⟨e, he, he'⟩ | ⟨⟨bytes', body₂', r₂'⟩, ⟨bytes, body₂, r₂⟩, ha', ha, hab⟩
      · rw [he, he']
        exact .error e
      obtain ⟨rfl, h₂⟩ : bytes' = bytes ∧ body₂' ++ r₂'.rest = body₂ ++ r₂.rest := Prod.ext_iff.1 hab
      rw [ha, ha']
      dsimp only
      obtain ⟨ht₁, hlen⟩ := chunkdata_ok ha
      have hcrln := readcrln_eq r₂ body₂
      have hcrln' := readcrln_eq r₂' body₂'
      rw [h₂, ← hcrln] at hcrln'
      rcases cases_of_map hcrln' with ⟨e, he, he'⟩ | ⟨⟨o', r₃'⟩, ⟨o, r₃⟩, ho', ho, hoo⟩
      · rw [he, he']
        exact .error e
      rw [ho, ho']
      match o, o', hoo with
      | none, none, _ => exact .none r₃ r₃'
      | some body₃, some body₃', hoo =>
        have h₃ : body₃' ++ r₃'.rest = body₃ ++ r₃.rest := Option.some.inj hoo
        refine ih line bytes' (body₃ ++ r₃.rest) n ?_ hnum (congrArg Nat.cast hlen.symm) hzero
          (Bool.eq_false_iff.2 hexceeds) rfl h₃ _
        rw [hcut, ht₁, readcrln_ok ho, append_assoc]

theorem recvchunks_shrinks {r r' : Reader} {result result' : Bytes} {body body' : Bytes}
    (h : recvchunks r bodylimit result size body = .ok (some (result', body'), r')) :
    body'.length + r'.rest.length ≤ body.length + r.rest.length := by
  fun_induction recvchunks r bodylimit result size body with
  | case1 | case2 | case4 | case5 | case6 | case7 => cases h
  | case3 r result size body r₁ body₁ hsize =>
    cases h
    exact (chunksize_shrinks hsize).le
  | case8 r result size body sz body₁ r₁ hsize hzero hexceeds bytes body₂ r₂ hdata body₃ r₃ hcrln
      ih =>
    have h₁ := chunksize_shrinks hsize
    have h₂ := chunkdata_shrinks hdata
    have h₃ := readcrln_shrinks hcrln
    have := ih h
    omega

end Mtask.Http
