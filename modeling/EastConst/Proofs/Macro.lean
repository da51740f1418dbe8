import EastConst.Proofs.Occurrence.Around
import EastConst.Proofs.Walk.Frame
import EastConst.Token.Stream

/-!
# A macro and what is around it

A directive hands back what the walk had met before it, but of the brackets that were open it hands
back only those that its macro's body does not close: the stack is cut back to its height and never
filled up. So the body of a macro plays no part in the roles after it exactly as far as it closes
nothing around it (`roles_around_macroBody`). The body in turn is walked with the brackets around it
on the stack. As long as it closes none of them, its qualifiers have the roles that they have in the
directive by itself, unless it stands where qualifiers are suppressed. Once it has closed some, they
have the roles that they have inside those alone, unless one that is left suppresses them
(`roles_in_macroBody`).
-/

namespace EastConst

theorem Directs.replace {before d d' after : List Token} (h : Directs before d after)
    (hhash : ∃ t rest, d' = t :: rest ∧ t.isMark .hash = true)
    (hline : ∀ t ∈ d', t.endsLine = false ∧ t.kind ≠ .endOfInput) : Directs before d' after where
  start := h.start
  inInput t ht := by
    rcases List.mem_append.1 ht with ht | ht
    · exact h.inInput t (List.mem_append_left _ ht)
    · exact (hline t ht).2
  hash := hhash
  onLine t ht := (hline t ht).1
  stop := h.stop

/-- Another body makes another directive. -/
theorem Directs.replace_body {before front body body' after : List Token}
    (h : Directs before (front ++ body) after) (hbody : macroBody? (front ++ body) = some body)
    (hline : ∀ t ∈ body', t.endsLine = false ∧ t.kind ≠ .endOfInput) :
    Directs before (front ++ body') after := by
  obtain ⟨front', heq, hpos⟩ := macroBody?_eq_some hbody
  obtain rfl := List.append_cancel_right heq
  obtain ⟨t, rest, hcons, hhash⟩ := h.hash
  refine h.replace ?_ ?_
  · cases front with
    | nil => simp at hpos
    | cons u front =>
      obtain ⟨rfl, -⟩ := List.cons.inj hcons
      exact ⟨u, front ++ body', rfl, hhash⟩
  · intro u hu
    rcases List.mem_append.1 hu with hu | hu
    · exact ⟨h.onLine u (List.mem_append_left _ hu),
        h.inInput u (List.mem_append_right _ (List.mem_append_left _ hu))⟩
    · exact hline u hu

/-- Tokens with those from an index to before another replaced. -/
def splice (ts : List Token) (start stop : Nat) (new : List Token) : List Token :=
  ts.take start ++ new ++ ts.drop stop

theorem splice_append (before d after new : List Token) :
    splice (before ++ d ++ after) before.length (before.length + d.length) new =
      before ++ new ++ after := by
  have htake : (before ++ d ++ after).take before.length = before := by simp
  have hdrop : (before ++ d ++ after).drop (before.length + d.length) = after := by
    rw [← List.length_append, List.drop_left]
  rw [splice, htake, hdrop]

/-- After a macro, the walk has met what it had met before it, and it is what it was exactly if the
macro's body closes no bracket that was open. Another body changes no role before the macro, and
none after it if neither body closes such a bracket. -/
theorem roles_around_macroBody (options : Options) {ts front body : List Token}
    {pre post : List Segment} (hsegs : segments ts = pre ++ .directive (front ++ body) :: post)
    (hbody : macroBody? (front ++ body) = some body) {w : Walk}
    (hw : Walk.runSegments options {} pre = w) {start stop : Nat}
    (hstart : (Segment.flatten pre).length = start)
    (hstop : start + (front ++ body).length = stop) :
    ((w.directive options (front ++ body)).preceding = w.preceding ∧
      (w.directive options (front ++ body)).last = w.last ∧
      (w.directive options (front ++ body)).trailingReturn = w.trailingReturn) ∧
    (w.directive options (front ++ body) = w ↔ w.Spares options (front ++ body)) ∧
    ∀ body', (∀ t ∈ body', t.endsLine = false ∧ t.kind ≠ .endOfInput) →
      (∀ i < start,
        roleAt options (splice ts start stop (front ++ body')) i = roleAt options ts i) ∧
      (w.Spares options (front ++ body) → w.Spares options (front ++ body') →
        ∀ i, roleAt options (splice ts start stop (front ++ body'))
          (start + (front ++ body').length + i) =
          roleAt options ts (stop + i)) := by
  have hcounts : w.Counts := hw ▸ Walk.counts_empty.runSegments options pre
  obtain ⟨after, rfl, hdirects, hpre⟩ := directs_of_segments hsegs
  subst hstart hstop
  refine ⟨?_, Walk.directive_eq_self_iff hcounts, fun body' hline => ?_⟩
  · unfold Walk.directive
    rw [hbody]
    exact ⟨rfl, rfl, rfl⟩
  have hdirects' := hdirects.replace_body hbody hline
  rw [splice_append]
  refine ⟨?_, ?_⟩
  · intro i hi
    rw [hdirects.roleAt_before hi, hdirects'.roleAt_before hi]
  · intro hspares hspares' i
    rw [hdirects.roleAt_after, hdirects'.roleAt_after, Directs.walk, hpre, hw,
      (Walk.directive_eq_self_iff hcounts).2 hspares,
      (Walk.directive_eq_self_iff hcounts).2 hspares']

/-- Two bodies that leave a bracket open, inside a bracket that is open. -/
theorem roles_around_macroBody_in_call :
    ∃ ts front, tokens "f(\n#define X (\nconst int a);".toList = ts ∧
      roleAt {} ts 10 = some .leading ∧
      roleAt {} (splice ts 3 9 (front ++ [⟨.whitespace, [' ']⟩, ⟨.punctuation, ['[']⟩])) 10 =
        some .leading := by
  obtain ⟨ts, hts⟩ : ∃ ts : List Token, ts =
      [⟨.identifier, ['f']⟩, ⟨.punctuation, ['(']⟩, ⟨.whitespace, ['\n']⟩, ⟨.punctuation, ['#']⟩,
       ⟨.identifier, "define".toList⟩, ⟨.whitespace, [' ']⟩, ⟨.identifier, ['X']⟩,
       ⟨.whitespace, [' ']⟩, ⟨.punctuation, ['(']⟩, ⟨.whitespace, ['\n']⟩,
       ⟨.keyword, "const".toList⟩, ⟨.whitespace, [' ']⟩, ⟨.keyword, "int".toList⟩,
       ⟨.whitespace, [' ']⟩, ⟨.identifier, ['a']⟩, ⟨.punctuation, [')']⟩, ⟨.punctuation, [';']⟩,
       .endOfInput] := ⟨_, rfl⟩
  have hsegs : segments ts =
      (ts.take 3).map .token ++ .directive ((ts.drop 3).take 4 ++ (ts.drop 7).take 2) ::
        ((ts.drop 9).take 8).map .token := by
    rw [hts]
    rfl
  have hrole : roleAt {} ts 10 = some .leading := by
    rw [hts]
    decide +kernel
  refine ⟨ts, (ts.drop 3).take 4, ?_, hrole, ?_⟩
  · rw [hts]
    decide +kernel
  · subst hts
    obtain ⟨-, -, hroles⟩ := roles_around_macroBody {} hsegs (by decide +kernel) rfl rfl rfl
    have hafter := (hroles [⟨.whitespace, [' ']⟩, ⟨.punctuation, ['[']⟩] (by decide)).2
      (by decide +kernel) (by decide +kernel) 1
    exact hafter.trans hrole

/-- A body that closes the bracket of a template header: a qualifier inside the header is moved. -/
theorem role_after_macro_changed :
    ∃ ts pre front body post, tokens "template<\n#define X >\nconst int n>;".toList = ts ∧
      segments ts = pre ++ .directive (front ++ body) :: post ∧
      macroBody? (front ++ body) = some body ∧ (Segment.flatten pre).length = 3 ∧
      roleAt {} ts 10 = some .leading ∧
      roleAt {} (splice ts 3 9 (front ++ [⟨.whitespace, [' ']⟩, ⟨.punctuation, ['<']⟩])) 10 =
        some .ignored := by
  obtain ⟨ts, hts⟩ : ∃ ts : List Token, ts =
      [⟨.keyword, "template".toList⟩, ⟨.punctuation, ['<']⟩, ⟨.whitespace, ['\n']⟩,
       ⟨.punctuation, ['#']⟩, ⟨.identifier, "define".toList⟩, ⟨.whitespace, [' ']⟩,
       ⟨.identifier, ['X']⟩, ⟨.whitespace, [' ']⟩, ⟨.punctuation, ['>']⟩, ⟨.whitespace, ['\n']⟩,
       ⟨.keyword, "const".toList⟩, ⟨.whitespace, [' ']⟩, ⟨.keyword, "int".toList⟩,
       ⟨.whitespace, [' ']⟩, ⟨.identifier, ['n']⟩, ⟨.punctuation, ['>']⟩, ⟨.punctuation, [';']⟩,
       .endOfInput] := ⟨_, rfl⟩
  refine ⟨ts, (ts.take 3).map .token, (ts.drop 3).take 4, (ts.drop 7).take 2,
    ((ts.drop 9).take 8).map .token, ?_, ?_, ?_, ?_, ?_, ?_⟩ <;> rw [hts] <;> decide +kernel

/-- A qualifier in a macro's body has the role that it has in the directive by itself, or is ignored
if the directive stands where qualifiers are suppressed, as long as the body has closed no bracket
that is open around it. Where it has closed some, the qualifier has the role that it has in a body
inside those alone, or is ignored if one that it has not closed suppresses qualifiers. -/
theorem roles_in_macroBody (options : Options) {ts front body : List Token}
    {pre post : List Segment} (hsegs : segments ts = pre ++ .directive (front ++ body) :: post)
    (hbody : macroBody? (front ++ body) = some body) {w : Walk}
    (hw : Walk.runSegments options {} pre = w) {k : Nat} (hk : k < body.length) :
    (w.enterBody.Sustains options (body.take k) →
      roleAt options ts ((Segment.flatten pre).length + (front.length + k)) =
        (roleAt options (front ++ body ++ [Token.endOfInput]) (front.length + k)).map fun role =>
          if w.nesting.isSuppressed then .ignored else role) ∧
    ∀ closed kept, w.nesting.brackets = closed ++ kept →
      w.enterBody.Retains options (body.take k) kept →
      roleAt options ts ((Segment.flatten pre).length + (front.length + k)) =
        (Qualifier.ofToken? body[k]).map fun _ =>
          if kept.any Bracket.suppresses then .ignored
          else (Walk.run options { nesting := .of closed } (body.take k)).role := by
  have hcounts : w.Counts := hw ▸ Walk.counts_empty.runSegments options pre
  obtain ⟨after, htokens, hdirects, hpre⟩ := directs_of_segments hsegs
  have halone : Directs [] (front ++ body) [Token.endOfInput] :=
    { start := rfl
      inInput := fun t ht => hdirects.inInput t (List.mem_append_right _ ht)
      hash := hdirects.hash
      onLine := hdirects.onLine
      stop := by simp [StopsLine, Token.endOfInput] }
  have hrole : roleAt options ([] ++ (front ++ body) ++ [Token.endOfInput]) _ = _ :=
    halone.roleAt_inside hbody hk
  rw [List.nil_append, List.length_nil, Nat.zero_add] at hrole
  rw [htokens, hdirects.roleAt_inside hbody hk, hrole, Directs.walk, hpre, hw]
  refine ⟨?_, ?_⟩
  · intro hsustains
    rw [Walk.role_run_enterBody hcounts hsustains, Option.map_map]
    rfl
  · intro closed kept hbrackets hretains
    rw [Walk.role_run_enterBody_of_retains hcounts hbrackets hretains,
      List.getElem?_eq_getElem hk, Option.bind_some]

/-- A parameter inside a macro's body, inside a bracket that is open, and a type after a body has
closed the inner of two brackets around it. -/
theorem roles_in_macroBody_in_call :
    (∃ ts, tokens "f(\n#define X g(const int)\n);".toList = ts ∧ roleAt {} ts 10 = some .leading) ∧
    ∃ ts, tokens "f(template<\n#define X > const int\n);".toList = ts ∧
      roleAt {} ts 12 = some .leading := by
  refine ⟨?_, ?_⟩
  · obtain ⟨ts, hts⟩ : ∃ ts : List Token, ts =
        [⟨.identifier, ['f']⟩, ⟨.punctuation, ['(']⟩, ⟨.whitespace, ['\n']⟩, ⟨.punctuation, ['#']⟩,
         ⟨.identifier, "define".toList⟩, ⟨.whitespace, [' ']⟩, ⟨.identifier, ['X']⟩,
         ⟨.whitespace, [' ']⟩, ⟨.identifier, ['g']⟩, ⟨.punctuation, ['(']⟩,
         ⟨.keyword, "const".toList⟩, ⟨.whitespace, [' ']⟩, ⟨.keyword, "int".toList⟩,
         ⟨.punctuation, [')']⟩, ⟨.whitespace, ['\n']⟩, ⟨.punctuation, [')']⟩, ⟨.punctuation, [';']⟩,
         .endOfInput] := ⟨_, rfl⟩
    have hsegs : segments ts =
        (ts.take 3).map .token ++ .directive ((ts.drop 3).take 4 ++ (ts.drop 7).take 7) ::
          ((ts.drop 14).take 3).map .token := by
      rw [hts]
      rfl
    refine ⟨ts, ?_, ?_⟩
    · rw [hts]
      decide +kernel
    · subst hts
      obtain ⟨hroles, -⟩ := roles_in_macroBody {} (k := 3) hsegs (by decide +kernel) rfl (by decide)
      exact (hroles (by decide +kernel)).trans (by decide +kernel)
  · obtain ⟨ts, hts⟩ : ∃ ts : List Token, ts =
        [⟨.identifier, ['f']⟩, ⟨.punctuation, ['(']⟩, ⟨.keyword, "template".toList⟩,
         ⟨.punctuation, ['<']⟩, ⟨.whitespace, ['\n']⟩, ⟨.punctuation, ['#']⟩,
         ⟨.identifier, "define".toList⟩, ⟨.whitespace, [' ']⟩, ⟨.identifier, ['X']⟩,
         ⟨.whitespace, [' ']⟩, ⟨.punctuation, ['>']⟩, ⟨.whitespace, [' ']⟩,
         ⟨.keyword, "const".toList⟩, ⟨.whitespace, [' ']⟩, ⟨.keyword, "int".toList⟩,
         ⟨.whitespace, ['\n']⟩, ⟨.punctuation, [')']⟩, ⟨.punctuation, [';']⟩,
         .endOfInput] := ⟨_, rfl⟩
    have hsegs : segments ts =
        (ts.take 5).map .token ++ .directive ((ts.drop 5).take 4 ++ (ts.drop 9).take 6) ::
          ((ts.drop 15).take 3).map .token := by
      rw [hts]
      rfl
    refine ⟨ts, ?_, ?_⟩
    · rw [hts]
      decide +kernel
    · subst hts
      obtain ⟨-, hroles⟩ := roles_in_macroBody {} (k := 3) hsegs (by decide +kernel) rfl (by decide)
      exact (hroles [.angle true] [.paren false] (by decide +kernel) (by decide +kernel)).trans
        (by decide +kernel)

/-- A macro inside a template header: its body is ignored, and by itself it is not. -/
theorem role_in_macro_suppressed :
    ∃ ts pre front body post, tokens "template<\n#define X const int\nclass T>;".toList = ts ∧
      segments ts = pre ++ .directive (front ++ body) :: post ∧
      macroBody? (front ++ body) = some body ∧ (Segment.flatten pre).length = 3 ∧
      roleAt {} ts 8 = some .ignored ∧
      roleAt {} (front ++ body ++ [Token.endOfInput]) 5 = some .leading := by
  obtain ⟨ts, hts⟩ : ∃ ts : List Token, ts =
      [⟨.keyword, "template".toList⟩, ⟨.punctuation, ['<']⟩, ⟨.whitespace, ['\n']⟩,
       ⟨.punctuation, ['#']⟩, ⟨.identifier, "define".toList⟩, ⟨.whitespace, [' ']⟩,
       ⟨.identifier, ['X']⟩, ⟨.whitespace, [' ']⟩, ⟨.keyword, "const".toList⟩, ⟨.whitespace, [' ']⟩,
       ⟨.keyword, "int".toList⟩, ⟨.whitespace, ['\n']⟩, ⟨.keyword, "class".toList⟩,
       ⟨.whitespace, [' ']⟩, ⟨.identifier, ['T']⟩, ⟨.punctuation, ['>']⟩, ⟨.punctuation, [';']⟩,
       .endOfInput] := ⟨_, rfl⟩
  refine ⟨ts, (ts.take 3).map .token, (ts.drop 3).take 4, (ts.drop 7).take 4,
    ((ts.drop 11).take 6).map .token, ?_, ?_, ?_, ?_, ?_, ?_⟩ <;> rw [hts] <;> decide +kernel

end EastConst
