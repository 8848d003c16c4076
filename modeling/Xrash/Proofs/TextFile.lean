import Xrash.TextFile

/-!
# What `readline` returns

The first line of a file, if the chunks it reaches into can be decoded.
-/

namespace Xrash

namespace Utf8

theorem decode_append (d : Utf8) : ∀ a b : Bytes, d.decode (a ++ b)
    = (d.decode a).bind fun r => (r.2.decode b).map fun r' => (r.1 ++ r'.1, r'.2)
  | [], b => by
    rcases h : d.decode b with _ | ⟨s, d'⟩ <;> simp [decode, h]
  | x :: a, b => by
    rw [List.cons_append, decode, decode]
    rcases d.step x with _ | ⟨c, d'⟩
    · rfl
    · have ih := decode_append d' a b
      simp only [Option.bind_eq_bind, Option.bind_some, ih]
      rcases d'.decode a with _ | ⟨s, d''⟩
      · rfl
      · rcases h : d''.decode b with _ | ⟨t, d'''⟩ <;> simp [h]

/-- The text of more bytes goes on from that of fewer. -/
theorem decode_take {content : Bytes} {m n : ℕ} (hmn : m ≤ n) {s : Str} {d : Utf8}
    (h : start.decode (content.take n) = some (s, d)) :
    ∃ s₁ d₁ s₂, start.decode (content.take m) = some (s₁, d₁)
      ∧ d₁.decode ((content.take n).drop m) = some (s₂, d) ∧ s = s₁ ++ s₂ := by
  have hsplit : content.take n = content.take m ++ (content.take n).drop m := by
    conv_lhs => rw [← List.take_append_drop m (content.take n)]
    rw [List.take_take, Nat.min_eq_left hmn]
  rw [hsplit, decode_append, Option.bind_eq_some_iff] at h
  obtain ⟨⟨s₁, d₁⟩, h₁, hmap⟩ := h
  obtain ⟨⟨s₂, d₂⟩, h₂, heq⟩ := Option.map_eq_some_iff.1 hmap
  obtain ⟨rfl, rfl⟩ := Prod.mk.inj heq
  exact ⟨s₁, d₁, s₂, h₁, h₂, rfl⟩

end Utf8

namespace TextFile

theorem HasLine.append {s : Str} (h : HasLine s) (t : Str) : HasLine (s ++ t) := by
  rcases h with h | h
  · exact .inl (List.mem_append_left _ h)
  · rcases t.eq_nil_or_concat with rfl | ⟨t, c, rfl⟩
    · rw [List.append_nil]
      exact .inr h
    · rw [List.concat_eq_append, ← List.append_assoc]
      refine .inr ?_
      rw [List.dropLast_concat]
      exact List.mem_append_left _ (List.mem_of_mem_dropLast h)

/-- What comes after a line does not change it. -/
theorem readline_append : ∀ {s : Str}, HasLine s → ∀ t,
    Xrash.readline (universalNewlines (s ++ t)) = Xrash.readline (universalNewlines s)
  | [], h, _ => by simp [HasLine] at h
  | c :: s, h, t => by
    by_cases hr : c = '\r'
    · subst hr
      have hline : ∀ u : Str, ∃ v, universalNewlines ('\r' :: u) = '\n' :: v := by
        intro u
        rcases u with _ | ⟨e, u⟩
        · exact ⟨_, rfl⟩
        · by_cases he : e = '\n'
          · subst he
            exact ⟨_, rfl⟩
          · exact ⟨universalNewlines (e :: u), by
              rw [universalNewlines]
              simp [he]⟩
      obtain ⟨v, hv⟩ := hline s
      obtain ⟨v', hv'⟩ := hline (s ++ t)
      rw [List.cons_append, hv, hv']
      simp [Xrash.readline]
    · rw [List.cons_append, universalNewlines_cons hr, universalNewlines_cons hr]
      by_cases hn : c = '\n'
      · subst hn
        simp [Xrash.readline]
      · have hs : HasLine s := by
          rcases h with h | h
          · exact .inl ((List.mem_cons.1 h).resolve_left (Ne.symm hn))
          · rcases s with _ | ⟨e, s⟩
            · simp at h
            · rw [List.dropLast_cons_cons] at h
              exact .inr ((List.mem_cons.1 h).resolve_left (Ne.symm hr))
        have hcons : ∀ u : Str, Xrash.readline (c :: u) = c :: Xrash.readline u := by
          intro u
          simp [Xrash.readline, hn]
        rw [hcons, hcons, readline_append hs t]

end TextFile

open TextFile

variable {content : Bytes} {line line' : Str}

theorem Shows.eq_of_le {m n : ℕ} (hmn : m ≤ n) (h : Shows content m line)
    (h' : Shows content n line') : line' = line := by
  obtain ⟨s, d, hs, hend, rfl⟩ := h
  obtain ⟨s', d', hs', -, rfl⟩ := h'
  obtain ⟨s₁, d₁, s₂, h₁, h₂, rfl⟩ := Utf8.decode_take hmn hs'
  obtain ⟨rfl, rfl⟩ := Prod.mk.inj (Option.some.inj (hs.symm.trans h₁))
  rcases hend with hline | ⟨hlen, rfl⟩
  · exact readline_append hline s₂
  · rw [List.drop_eq_nil_of_le (by rw [List.length_take]; omega)] at h₂
    cases h₂
    rw [List.append_nil]

/-- A file has one first line. -/
theorem FirstLine.unique (h : FirstLine content line) (h' : FirstLine content line') :
    line = line' := by
  obtain ⟨m, hm⟩ := h
  obtain ⟨n, hn⟩ := h'
  rcases Nat.le_total m n with hmn | hnm
  · exact (hm.eq_of_le hmn hn).symm
  · exact hn.eq_of_le hnm hm

theorem take_chunk (content : Bytes) (k : ℕ) : content.take (CHUNK_SIZE * (k + 1))
    = content.take (CHUNK_SIZE * k) ++ (content.drop (CHUNK_SIZE * k)).take CHUNK_SIZE := by
  rw [Nat.mul_succ, List.take_add]

/-- A line that some chunks do not have is shown by more of them. -/
theorem Shows.next {s : Str} {d : Utf8} {k n : ℕ} (h : Shows content (CHUNK_SIZE * n) line)
    (hline : ¬ HasLine s) (hne : content.drop (CHUNK_SIZE * k) ≠ [])
    (hd : Utf8.start.decode (content.take (CHUNK_SIZE * k)) = some (s, d)) (hn : k ≤ n) :
    k + 1 ≤ n ∧ ∃ r, Utf8.start.decode (content.take (CHUNK_SIZE * (k + 1))) = some r := by
  obtain ⟨t, d', hd', hend, -⟩ := h
  have hlt : k + 1 ≤ n := by
    refine Nat.lt_of_le_of_ne hn fun hkn => ?_
    subst hkn
    obtain ⟨rfl, -⟩ := Prod.mk.inj (Option.some.inj (hd.symm.trans hd'))
    rcases hend with hend | ⟨hend, -⟩
    · exact hline hend
    · exact hne (List.drop_eq_nil_of_le hend)
  obtain ⟨s₁, d₁, -, h₁, -⟩ := Utf8.decode_take (Nat.mul_le_mul_left CHUNK_SIZE hlt) hd'
  exact ⟨hlt, _, h₁⟩

/-- From any chunk on, `readline` returns the line that a later chunk shows. -/
theorem readlineFrom_iff (s : Str) (d : Utf8) (bytes : Bytes) : ∀ k : ℕ,
    bytes = content.drop (CHUNK_SIZE * k) →
    Utf8.start.decode (content.take (CHUNK_SIZE * k)) = some (s, d) →
    (readlineFrom s d bytes = some line ↔ ∃ n, k ≤ n ∧ Shows content (CHUNK_SIZE * n) line) := by
  fun_induction readlineFrom s d bytes with
  | case1 s d bytes hline =>
    intro k _ hd
    have hk : Shows content (CHUNK_SIZE * k) (Xrash.readline (universalNewlines s)) :=
      ⟨s, d, hd, .inl hline, rfl⟩
    refine ⟨fun h => ⟨k, Nat.le_refl k, Option.some.inj h ▸ hk⟩, ?_⟩
    rintro ⟨n, hn, hshows⟩
    rw [hk.eq_of_le (Nat.mul_le_mul_left _ hn) hshows]
  | case2 s hline =>
    intro k hb hd
    have hlen : content.length ≤ CHUNK_SIZE * k := List.drop_eq_nil_iff.1 hb.symm
    have hk : Shows content (CHUNK_SIZE * k) (Xrash.readline (universalNewlines s)) :=
      ⟨s, .start, hd, .inr ⟨hlen, rfl⟩, rfl⟩
    refine ⟨fun h => ⟨k, Nat.le_refl k, Option.some.inj h ▸ hk⟩, ?_⟩
    rintro ⟨n, hn, hshows⟩
    rw [hk.eq_of_le (Nat.mul_le_mul_left _ hn) hshows]
  | case3 s d hline hstart =>
    intro k hb hd
    have hlen : content.length ≤ CHUNK_SIZE * k := List.drop_eq_nil_iff.1 hb.symm
    refine iff_of_false (by simp) ?_
    rintro ⟨n, hn, s', d', hd', hend, -⟩
    have hle : content.length ≤ CHUNK_SIZE * n := hlen.trans (Nat.mul_le_mul_left _ hn)
    rw [List.take_of_length_le hle, ← List.take_of_length_le hlen, hd] at hd'
    obtain ⟨rfl, rfl⟩ := Prod.mk.inj (Option.some.inj hd')
    rcases hend with hend | ⟨-, hend⟩
    · exact hline hend
    · exact hstart hend
  | case4 s d bytes hline hne hnone =>
    intro k hb hd
    refine iff_of_false (by simp) ?_
    rintro ⟨n, hn, hshows⟩
    obtain ⟨r, hd'⟩ := (hshows.next hline (hb ▸ hne) hd hn).2
    rw [take_chunk, Utf8.decode_append, hd, ← hb, Option.bind_some, hnone] at hd'
    cases hd'
  | case5 s d bytes hline hne s' d' hsome ih =>
    intro k hb hd
    have hd' : Utf8.start.decode (content.take (CHUNK_SIZE * (k + 1))) = some (s ++ s', d') := by
      rw [take_chunk, Utf8.decode_append, hd, ← hb, Option.bind_some, hsome]
      rfl
    rw [ih (k + 1) (by rw [hb, List.drop_drop, Nat.mul_succ]) hd']
    refine exists_congr fun n => ⟨fun h => ⟨Nat.le_of_succ_le h.1, h.2⟩, fun h => ⟨?_, h.2⟩⟩
    exact (h.2.next hline (hb ▸ hne) hd h.1).1

theorem readline_iff : (ofBytes content).readline = some line
    ↔ ∃ n, Shows content (CHUNK_SIZE * n) line := by
  refine (readlineFrom_iff [] .start content 0 rfl rfl).trans ?_
  simp only [Nat.zero_le, true_and]

/-- A legible file gives its first line. -/
theorem Legible.readline_eq (h : Legible content) (hf : FirstLine content line) :
    (ofBytes content).readline = some line := by
  obtain ⟨n, line', hn⟩ := h
  obtain rfl : line' = line := FirstLine.unique ⟨_, hn⟩ hf
  exact readline_iff.2 ⟨n, hn⟩

/-- In a file of one chunk it is the chunk that counts. -/
theorem legible_of_short (hlen : content.length ≤ CHUNK_SIZE) {s : Str} {d : Utf8}
    (hd : Utf8.start.decode content = some (s, d)) (hline : HasLine s) : Legible content :=
  ⟨1, _, s, d, by rwa [Nat.mul_one, List.take_of_length_le hlen], .inl hline, rfl⟩

theorem not_legible_of_short (hlen : content.length ≤ CHUNK_SIZE) (hne : content ≠ [])
    (hd : Utf8.start.decode content = none) : ¬ Legible content := by
  rintro ⟨n, line, s, d, hs, hend, -⟩
  rcases n with _ | n
  · cases hs
    rcases hend with h | ⟨h, -⟩
    · exact absurd h (by decide)
    · exact hne (List.eq_nil_of_length_eq_zero (Nat.le_zero.1 h))
  · have hle : content.length ≤ CHUNK_SIZE * (n + 1) :=
      hlen.trans (Nat.le_mul_of_pos_right _ (by omega))
    rw [List.take_of_length_le hle, hd] at hs
    cases hs

/-- The other files raise an exception. -/
theorem readline_eq_none (h : ¬ Legible content) : (ofBytes content).readline = none :=
  Option.eq_none_iff_forall_ne_some.2 fun line hline => by
    obtain ⟨n, hn⟩ := readline_iff.1 hline
    exact h ⟨n, line, hn⟩

end Xrash
