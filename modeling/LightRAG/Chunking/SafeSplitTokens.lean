import Mathlib.Data.List.GetD
import LightRAG.Chunking.SafeSplit

/-!
# Windows that end inside a token

A window by tokens begins and ends where tokens begin.
-/

namespace LightRAG.Utf8

theorem isTail_add (n : ℕ) : isTail (0x80 + n % 0x40) = true := by
  rw [isTail,Bool.and_eq_true,decide_eq_true_eq,decide_eq_true_eq]
  omega

theorem isTail_eq_false {b : ℕ} (h : b < 0x80 ∨ 0xC0 ≤ b) : isTail b = false := by
  rw [isTail,Bool.and_eq_false_iff,decide_eq_false_iff_not,decide_eq_false_iff_not]
  omega

theorem countP_encodeOne (c : CodePoint) : (encodeOne c).countP (fun b => !isTail b) = 1 := by
  have hlead : ∀ n, isTail (0xC0 + n) = false := fun n => isTail_eq_false (.inr (by omega))
  have hlead' : ∀ n, isTail (0xE0 + n) = false := fun n => isTail_eq_false (.inr (by omega))
  have hlead'' : ∀ n, isTail (0xF0 + n) = false := fun n => isTail_eq_false (.inr (by omega))
  simp only [encodeOne]
  split
  · rename_i hsmall
    simp [isTail_eq_false (.inl hsmall)]
  · split
    · simp [hlead,isTail_add]
    · split
      · rfl
      · split
        · simp [hlead',isTail_add]
        · simp [hlead'',isTail_add]

end LightRAG.Utf8

namespace LightRAG.Chunking.SafeSplit
open List

variable {count : Str → ℕ} {content : Str} {maxTokens overlapTokens startChar startToken : ℕ}
  {span : TokenSpan} {spans : List TokenSpan} {e : TokenBudgetError} {offsets : List ℕ}
  {totalTokens token : ℕ}

structure Boundaries (content : Str) (offsets : List ℕ) (totalTokens : ℕ) : Prop where
  first : boundary content offsets totalTokens 0 = 0
  mono : ∀ i j, i ≤ j →
    boundary content offsets totalTokens i ≤ boundary content offsets totalTokens j
  lt : ∀ k < totalTokens, boundary content offsets totalTokens k < content.length

theorem boundary_of_le {k : ℕ} (h : totalTokens ≤ k) :
    boundary content offsets totalTokens k = content.length :=
  if_neg (Nat.not_lt.mpr h)

theorem Boundaries.le (h : Boundaries content offsets totalTokens) (k : ℕ) :
    boundary content offsets totalTokens k ≤ content.length := by
  rcases Nat.lt_or_ge k totalTokens with hlt | hge
  · exact (h.lt k hlt).le
  · exact (boundary_of_le hge).le

theorem retreatTokens_some {k j : ℕ} {lastEnd : Option ℕ} (hk : startToken + k ≤ totalTokens)
    (h : retreatTokens count content maxTokens offsets totalTokens startChar startToken k j
      lastEnd = some (span, token)) :
    span.start = startChar ∧ startChar < span.stop ∧
      span.stop = boundary content offsets totalTokens token ∧ token ≤ totalTokens ∧
      Counted count content maxTokens span := by
  fun_induction retreatTokens count content maxTokens offsets totalTokens startChar startToken k j
    lastEnd with
  | case1 k j lastEnd stop tokens hfits =>
    cases h
    exact ⟨rfl,hfits.2.1,rfl,hk,rfl,hfits.2.2⟩
  | case2 k j lastEnd stop tokens hnot hone => cases h
  | case3 k j lastEnd stop tokens hnot hmore ih =>
    have hpos := Nat.two_pow_pos j
    exact ih (by omega) h

theorem advance_spec (content : Str) (offsets : List ℕ) (totalTokens endChar endToken : ℕ) :
    endToken ≤ advance content offsets totalTokens endChar endToken ∧
      (endToken ≤ totalTokens → advance content offsets totalTokens endChar endToken ≤ totalTokens) ∧
      (advance content offsets totalTokens endChar endToken < totalTokens →
        endChar ≤ boundary content offsets totalTokens
          (advance content offsets totalTokens endChar endToken)) ∧
      (endToken < advance content offsets totalTokens endChar endToken →
        boundary content offsets totalTokens
          (advance content offsets totalTokens endChar endToken - 1) < endChar) := by
  fun_induction advance content offsets totalTokens endChar endToken with
  | case1 endToken hmore ih =>
    obtain ⟨hle,htotal,hreached,hbefore⟩ := ih
    refine ⟨by omega,fun _ => htotal hmore.1,hreached,fun _ => ?_⟩
    rcases Nat.eq_or_lt_of_le hle with heq | hlt
    · rw [← heq]
      exact hmore.2
    · exact hbefore hlt
  | case2 endToken hend =>
    refine ⟨Nat.le_refl _,id,fun hlt => ?_,fun hlt => absurd hlt (Nat.lt_irrefl _)⟩
    by_contra hbefore
    exact hend ⟨hlt,Nat.not_le.mp hbefore⟩

structure WindowFrom (count : Str → ℕ) (content : Str) (maxTokens : ℕ) (offsets : List ℕ)
    (totalTokens startChar : ℕ) (span : TokenSpan) (token : ℕ) : Prop where
  start : span.start = startChar
  lt : startChar < span.stop
  counted : Counted count content maxTokens span
  le : token ≤ totalTokens
  /-- From within the text, the window ends in it, and within the token before `token`. -/
  inText : startChar < content.length → span.stop ≤ content.length ∧ 0 < token ∧
    span.stop ≤ boundary content offsets totalTokens token ∧
      boundary content offsets totalTokens (token - 1) ≤ span.stop

theorem prefixSpanViaBoundary_ok (hb : Boundaries content offsets totalTokens)
    (htoken : startToken ≤ totalTokens)
    (hchar : startChar = boundary content offsets totalTokens startToken)
    (h : prefixSpanViaBoundary count content maxTokens offsets totalTokens startChar startToken =
      .ok (span, token)) :
    WindowFrom count content maxTokens offsets totalTokens startChar span token := by
  rw [prefixSpanViaBoundary] at h
  split at h
  · rename_i window hwindow
    cases h
    obtain ⟨hstart,hlt,hstop,htotal,hcounted⟩ := retreatTokens_some (by omega) hwindow
    refine ⟨hstart,hlt,hcounted,htotal,fun _ => ?_⟩
    rw [hstop]
    refine ⟨hb.le _,?_,Nat.le_refl _,hb.mono _ _ (Nat.sub_le _ _)⟩
    rw [Nat.pos_iff_ne_zero]
    rintro rfl
    rw [hstop,hb.first] at hlt
    exact Nat.not_lt_zero _ hlt
  · obtain ⟨floor,hfloor,heq⟩ := Results.map_ok h
    obtain ⟨rfl,rfl⟩ := Prod.mk.inj heq
    obtain ⟨hstart,hstop,hcounted⟩ := firstCodePoint_ok hfloor
    obtain ⟨hle,htotal,hreached,hbefore⟩ :=
      advance_spec content offsets totalTokens floor.stop startToken
    refine ⟨hstart,by omega,hcounted,htotal htoken,fun hin => ?_⟩
    have hbegun : startToken < totalTokens := by
      by_contra hend
      rw [boundary_of_le (Nat.not_lt.mp hend)] at hchar
      omega
    have hpassed : startToken < advance content offsets totalTokens floor.stop startToken := by
      refine Nat.lt_of_le_of_ne hle fun heq => ?_
      have hend := hreached (by omega)
      rw [← heq] at hend
      omega
    refine ⟨by omega,by omega,?_,(hbefore hpassed).le⟩
    rcases Nat.lt_or_ge (advance content offsets totalTokens floor.stop startToken) totalTokens
      with hlt | hge
    · exact hreached hlt
    · rw [boundary_of_le hge]
      omega

theorem oversized_of_prefixSpanViaBoundary (hempty : count [] = 0)
    (h : prefixSpanViaBoundary count content maxTokens offsets totalTokens startChar startToken =
      .error e) : Oversized count content maxTokens := by
  rw [prefixSpanViaBoundary] at h
  split at h
  · cases h
  · exact oversized_of_firstCodePoint hempty (Results.map_error h)

/-- What holds before a round: the text is covered to somewhere in the token before `token`. -/
structure CoveredTokens.Inv (content : Str) (offsets : List ℕ) (totalTokens : ℕ)
    (s : CoveredTokens) : Prop where
  tokens : s.token ≤ totalTokens
  le : s.stop < content.length → s.stop ≤ boundary content offsets totalTokens s.token
  begun : s.token = 0 → s.stop = 0
  before : 0 < s.token → boundary content offsets totalTokens (s.token - 1) ≤ s.stop

variable {s t : CoveredTokens} {overlap : ℕ}

theorem CoveredTokens.Inv.start : (⟨0, 0, 0⟩ : CoveredTokens).Inv content offsets totalTokens :=
  ⟨Nat.zero_le _,fun _ => Nat.zero_le _,fun _ => rfl,fun h => absurd h (Nat.lt_irrefl 0)⟩

theorem acceptedWindow_ok (hb : Boundaries content offsets totalTokens)
    (hs : s.Inv content offsets totalTokens) (hmore : s.stop < content.length)
    (h : acceptedWindow count content maxTokens overlapTokens offsets totalTokens s =
      .ok (overlap, span, token)) :
    s.stop < span.stop ∧ span.start < span.stop ∧ Counted count content maxTokens span ∧
      token ≤ totalTokens ∧
      (overlap = 0 → span.start = boundary content offsets totalTokens s.token) ∧
      (overlap ≠ 0 → span.start ≤ s.stop) ∧
      (span.start < content.length → span.stop ≤ content.length ∧ 0 < token ∧
        span.stop ≤ boundary content offsets totalTokens token ∧
          boundary content offsets totalTokens (token - 1) ≤ span.stop) := by
  obtain ⟨hattempt,htarget,haccepts⟩ := Retreat.search_ok h
  have hwindow := prefixSpanViaBoundary_ok hb (by have := hs.tokens; omega) rfl hattempt
  obtain ⟨hstart,hlt,hcounted,htoken,hin⟩ := hwindow
  refine ⟨?_,by omega,hcounted,htoken,?_,?_,?_⟩
  · by_cases hzero : overlap = 0
    · subst hzero
      have hle := hs.le hmore
      rw [Nat.sub_zero] at hlt
      omega
    · exact of_decide_eq_true (haccepts hzero)
  · rintro rfl
    rw [hstart,Nat.sub_zero]
  · intro hne
    have hpos : 0 < s.token := by
      by_contra hzero
      rw [if_neg hzero] at htarget
      omega
    rw [hstart]
    exact (hb.mono _ _ (by omega)).trans (hs.before hpos)
  · rw [hstart]
    exact hin

theorem CoveredTokens.Inv.next (hb : Boundaries content offsets totalTokens)
    (hs : s.Inv content offsets totalTokens) (hmore : s.stop < content.length)
    (h : acceptedWindow count content maxTokens overlapTokens offsets totalTokens s =
      .ok (overlap, span, token)) (hnext : span.stop < content.length) :
    (⟨span.stop, token, span.tokenCount⟩ : CoveredTokens).Inv content offsets totalTokens := by
  obtain ⟨-,hlt,-,htoken,-,-,hin⟩ := acceptedWindow_ok hb hs hmore h
  obtain ⟨-,hpos,hle,hbefore⟩ := hin (by omega)
  exact ⟨htoken,fun _ => hle,fun hzero => absurd hzero (Nat.ne_of_gt hpos),fun _ => hbefore⟩

/-- In every round without an overlap the next token begins where the text is covered to. -/
def Aligned (count : Str → ℕ) (content : Str) (maxTokens overlapTokens : ℕ) (offsets : List ℕ)
    (totalTokens : ℕ) (s : CoveredTokens) : Prop :=
  ∀ t, (tokenWindows count content maxTokens overlapTokens offsets totalTokens).Reached s t →
    t.stop < content.length → ∀ window,
      acceptedWindow count content maxTokens overlapTokens offsets totalTokens t =
        .ok (0, window) → boundary content offsets totalTokens t.token = t.stop

theorem tokenWindows_step (h : (tokenWindows count content maxTokens overlapTokens offsets
      totalTokens).step s = .ok (span, t)) :
    ∃ overlap, acceptedWindow count content maxTokens overlapTokens offsets totalTokens s =
      .ok (overlap, span, t.token) ∧ t = ⟨span.stop, t.token, span.tokenCount⟩ := by
  obtain ⟨⟨overlap,window,token⟩,haccepted,heq⟩ := Results.map_ok h
  obtain ⟨rfl,rfl⟩ := Prod.mk.inj heq
  exact ⟨overlap,haccepted,rfl⟩

theorem tokenWindows_coversFrom_iff (hb : Boundaries content offsets totalTokens) {fuel : ℕ}
    (hle : s.stop ≤ content.length)
    (hs : s.stop < content.length → s.Inv content offsets totalTokens)
    (h : (tokenWindows count content maxTokens overlapTokens offsets totalTokens).run fuel s =
      some (.ok spans)) :
    CoversFrom count content maxTokens s.stop spans ↔
      Aligned count content maxTokens overlapTokens offsets totalTokens s := by
  induction spans generalizing s fuel with
  | nil =>
    rcases Loop.run_ok_cases h with ⟨hdone,-⟩ | ⟨_,_,_,_,_,_,_,hnil⟩
    · have hend : s.stop = content.length := Nat.le_antisymm hle (of_decide_eq_true hdone)
      refine ⟨fun _ => ?_,fun _ => hend⟩
      intro t hreached hmore
      rw [hreached.of_done hdone] at hmore
      omega
    · cases hnil
  | cons span rest ih =>
    rcases Loop.run_ok_cases h with ⟨-,hnil⟩ | ⟨item,t,rest',fuel',hdone,hstep,hrest,hcons⟩
    · cases hnil
    · obtain ⟨rfl,rfl⟩ := List.cons.inj hcons
      have hmore : s.stop < content.length := by simpa [tokenWindows] using hdone
      obtain ⟨overlap,haccepted,ht⟩ := tokenWindows_step hstep
      obtain ⟨hcovered,hlt,hcounted,-,hzero,hoverlap,hin⟩ :=
        acceptedWindow_ok hb (hs hmore) hmore haccepted
      have hhead : span.start ≤ s.stop ↔ (overlap = 0 →
          boundary content offsets totalTokens s.token = s.stop) := by
        constructor
        · intro hstart hnone
          exact Nat.le_antisymm (hzero hnone ▸ hstart) ((hs hmore).le hmore)
        · intro haligned
          by_cases hnone : overlap = 0
          · rw [hzero hnone,haligned hnone]
          · exact hoverlap hnone
      have htail : span.start ≤ s.stop → (CoversFrom count content maxTokens t.stop rest ↔
          Aligned count content maxTokens overlapTokens offsets totalTokens t) := by
        intro hstart
        have hstop := (hin (by omega)).1
        rw [ht]
        rw [ht] at hrest
        exact ih hstop (fun hnext => (hs hmore).next hb hmore haccepted hnext) hrest
      have hstop : t.stop = span.stop := by rw [ht]
      rw [hstop] at htail
      constructor
      · rintro ⟨hstart,-,-,-,-,hcovers⟩ u hreached
        rcases hreached.cases_head hstep with rfl | hlater
        · intro _ window hwindow
          rw [haccepted] at hwindow
          cases hwindow
          exact hhead.mp hstart rfl
        · exact (htail hstart).mp hcovers u hlater
      · intro haligned
        have hstart : span.start ≤ s.stop := by
          rw [hhead]
          rintro rfl
          exact haligned s .start hmore _ haccepted
        refine ⟨hstart,hcovered,hlt,(hin (by omega)).1,hcounted,(htail hstart).mpr ?_⟩
        exact fun u hreached => haligned u (hreached.head hdone hstep)

theorem acceptedWindow_error (hempty : count [] = 0)
    (h : acceptedWindow count content maxTokens overlapTokens offsets totalTokens s = .error e) :
    Oversized count content maxTokens := by
  have hattempt := Retreat.search_error h
  exact oversized_of_prefixSpanViaBoundary hempty hattempt

theorem tokenWindows_end (hb : Boundaries content offsets totalTokens) :
    ∃ result, ∀ fuel > content.length,
      (tokenWindows count content maxTokens overlapTokens offsets totalTokens).run fuel ⟨0, 0, 0⟩ =
        some result := by
  refine Loop.run_ends
    (fun t : CoveredTokens => t.stop < content.length → t.Inv content offsets totalTokens)
    (fun t : CoveredTokens => content.length - t.stop) ?_ (fun _ => .start)
  intro t item u ht hdone hstep
  have hmore : t.stop < content.length := by simpa [tokenWindows] using hdone
  obtain ⟨overlap,haccepted,hu⟩ := tokenWindows_step hstep
  obtain ⟨hcovered,-⟩ := acceptedWindow_ok hb (ht hmore) hmore haccepted
  have hstop : u.stop = item.stop := by rw [hu]
  refine ⟨fun hnext => ?_,by omega⟩
  rw [hu]
  exact (ht hmore).next hb hmore haccepted (hstop ▸ hnext)

def begun (bytes : List ℕ) : ℕ := bytes.countP fun b => !Utf8.isTail b

/-- `decode_with_offsets`: where the tokens begin, from the number of characters begun before. -/
def offsetsFrom {τ : Type} (bytes : τ → List ℕ) : ℕ → List τ → List ℕ
  | _, [] => []
  | textLen, t :: ts =>
    (if (bytes t).head?.any Utf8.isTail then textLen - 1 else textLen) ::
      offsetsFrom bytes (textLen + begun (bytes t)) ts

def utf8 (content : Str) : List ℕ := content.flatMap fun c => Utf8.encodeOne (Fin.ofNat _ c.toNat)

/-- The tokens of a text are bytes that decode to it, and `decode_with_offsets` says where they
begin. -/
structure Tiktoken.FollowsContract {τ : Type} (t : Tiktoken τ) (bytes : τ → List ℕ) : Prop where
  nonempty : ∀ content, ∀ token ∈ t.encode content, bytes token ≠ []
  encoded : ∀ content, (t.encode content).flatMap bytes = utf8 content
  decoded : ∀ content, t.decodeWithOffsets (t.encode content) =
    some (content, offsetsFrom bytes 0 (t.encode content))

section

variable {τ : Type} {bytes : τ → List ℕ}

theorem begun_utf8 (content : Str) : begun (utf8 content) = content.length := by
  induction content with
  | nil => rfl
  | cons c content ih =>
    rw [utf8,flatMap_cons,begun,countP_append,Utf8.countP_encodeOne]
    rw [begun,utf8] at ih
    rw [ih,length_cons,Nat.add_comm]

theorem length_offsetsFrom (textLen : ℕ) (ts : List τ) :
    (offsetsFrom bytes textLen ts).length = ts.length := by
  induction ts generalizing textLen with
  | nil => rfl
  | cons t ts ih => rw [offsetsFrom,length_cons,length_cons,ih]

theorem begun_pos {bs : List ℕ} (hne : bs ≠ []) (h : bs.head?.any Utf8.isTail = false) :
    0 < begun bs := by
  cases bs with
  | nil => exact absurd rfl hne
  | cons b bs =>
    have hb : Utf8.isTail b = false := by simpa using h
    rw [begun,countP_cons,hb]
    simp

theorem offsetsFrom_sorted (textLen : ℕ) {ts : List τ} (hne : ∀ token ∈ ts, bytes token ≠ []) :
    (offsetsFrom bytes textLen ts).Pairwise (· ≤ ·) ∧
      ∀ o ∈ offsetsFrom bytes textLen ts, textLen - 1 ≤ o ∧
        o < max 1 (textLen + begun (ts.flatMap bytes)) := by
  induction ts generalizing textLen with
  | nil => exact ⟨.nil,forall_mem_nil _⟩
  | cons t ts ih =>
    rw [forall_mem_cons] at hne
    obtain ⟨hsorted,hbounds⟩ := ih (textLen + begun (bytes t)) hne.2
    have hsum : begun ((t :: ts).flatMap bytes) = begun (bytes t) + begun (ts.flatMap bytes) := by
      rw [flatMap_cons,begun,countP_append,begun,begun]
    rw [offsetsFrom,pairwise_cons,forall_mem_cons]
    cases hhead : (bytes t).head?.any Utf8.isTail with
    | true =>
      simp only [if_true]
      refine ⟨⟨fun o ho => ?_,hsorted⟩,⟨Nat.le_refl _,by omega⟩,fun o ho => ?_⟩
      · have := hbounds o ho
        omega
      · have := hbounds o ho
        omega
    | false =>
      have hpos := begun_pos hne.1 hhead
      simp only [Bool.false_eq_true,if_false]
      refine ⟨⟨fun o ho => ?_,hsorted⟩,⟨Nat.sub_le _ _,by omega⟩,fun o ho => ?_⟩
      · have := hbounds o ho
        omega
      · have := hbounds o ho
        omega

theorem getD_mem {l : List ℕ} {k : ℕ} (h : k < l.length) : l.getD k 0 ∈ l := by
  rw [getD_eq_getElem l 0 h]
  exact getElem_mem h

theorem getD_le_getD {l : List ℕ} {i j : ℕ} (hsorted : l.Pairwise (· ≤ ·)) (hij : i ≤ j)
    (hj : j < l.length) : l.getD i 0 ≤ l.getD j 0 := by
  rw [getD_eq_getElem l 0 hj,getD_eq_getElem l 0 (by omega)]
  rcases Nat.eq_or_lt_of_le hij with rfl | hlt
  · exact Nat.le_refl _
  · exact pairwise_iff_getElem.mp hsorted i j _ hj hlt

theorem Boundaries.of_contract {t : Tiktoken τ} (hcontract : t.FollowsContract bytes)
    (hne : content ≠ []) (htokens : t.encode content ≠ []) :
    Boundaries content (offsetsFrom bytes 0 (t.encode content)) (t.encode content).length := by
  obtain ⟨hsorted,hbounds⟩ := offsetsFrom_sorted 0 (hcontract.nonempty content)
  have hlength : (offsetsFrom bytes 0 (t.encode content)).length = (t.encode content).length :=
    length_offsetsFrom 0 _
  have hlt : ∀ o ∈ offsetsFrom bytes 0 (t.encode content), o < content.length := by
    intro o ho
    have hbound := (hbounds o ho).2
    rw [hcontract.encoded,begun_utf8] at hbound
    have hpos := length_pos_iff.mpr hne
    omega
  have hboundary : ∀ k < (t.encode content).length,
      boundary content (offsetsFrom bytes 0 (t.encode content)) (t.encode content).length k =
        (offsetsFrom bytes 0 (t.encode content)).getD k 0 := fun k hk => if_pos hk
  have hbegins : ∀ k < (t.encode content).length,
      boundary content (offsetsFrom bytes 0 (t.encode content)) (t.encode content).length k <
        content.length := by
    intro k hk
    rw [hboundary k hk]
    exact hlt _ (getD_mem (by omega))
  constructor
  case first =>
    rw [hboundary 0 (length_pos_iff.mpr htokens)]
    cases hts : t.encode content with
    | nil => exact absurd hts htokens
    | cons token ts =>
      rw [offsetsFrom]
      simp
  case mono =>
    intro i j hij
    rcases Nat.lt_or_ge j (t.encode content).length with hj | hj
    · rw [hboundary i (by omega),hboundary j hj]
      exact getD_le_getD hsorted hij (by omega)
    · rw [boundary_of_le hj]
      rcases Nat.lt_or_ge i (t.encode content).length with hi | hi
      · exact (hbegins i hi).le
      · exact (boundary_of_le hi).le
  case lt => exact hbegins

theorem Tiktoken.FollowsContract.encode_nil {t : Tiktoken τ} (h : t.FollowsContract bytes) :
    t.encode [] = [] := by
  by_contra hne
  obtain ⟨token,ts,hts⟩ := exists_cons_of_ne_nil hne
  have hencoded := h.encoded []
  rw [hts] at hencoded
  have htoken : token ∈ t.encode [] := hts ▸ mem_cons_self
  exact h.nonempty [] token htoken (append_eq_nil_iff.mp hencoded).1

/-- The text is within the limit, or the call raises, or its rounds are aligned. -/
def Tiktoken.AlignedCall (t : Tiktoken τ) (content : Str) (maxTokens overlapTokens : ℕ)
    (ratio : CharsPerToken) : Prop :=
  t.count content ≤ maxTokens ∨
    (∃ fuel e, t.splitByTokenLimit content maxTokens overlapTokens ratio fuel =
      some (.error e)) ∨
    ∀ text offsets, t.decodeWithOffsets (t.encode content) = some (text, offsets) →
      Aligned t.count content maxTokens overlapTokens offsets (t.count content) ⟨0, 0, 0⟩

theorem Tiktoken.FollowsContract.splitsSafely_iff {t : Tiktoken τ}
    (hcontract : t.FollowsContract bytes)
    {ratio : CharsPerToken} :
    SplitsSafely t.count content maxTokens
        (t.splitByTokenLimit content maxTokens overlapTokens ratio) ↔
      t.AlignedCall content maxTokens overlapTokens ratio := by
  have hempty : t.count [] = 0 := by rw [Tiktoken.count,hcontract.encode_nil,length_nil]
  by_cases hfits : t.count content ≤ maxTokens
  · refine ⟨fun _ => .inl hfits,fun _ => ?_⟩
    by_cases hnil : content = []
    · subst hnil
      exact ⟨.ok [],⟨0,fun fuel _ => if_pos rfl⟩,covers_nil⟩
    · refine ⟨.ok [⟨0,content.length,t.count content⟩],⟨0,fun fuel _ => ?_⟩,covers_whole hnil hfits⟩
      rw [Tiktoken.splitByTokenLimit,if_neg hnil]
      exact if_pos hfits
  · have hnil : content ≠ [] := by
      rintro rfl
      rw [hempty] at hfits
      exact hfits (Nat.zero_le _)
    have htokens : t.encode content ≠ [] := by
      intro hzero
      rw [Tiktoken.count,hzero] at hfits
      exact hfits (Nat.zero_le _)
    have hb := Boundaries.of_contract hcontract hnil htokens
    obtain ⟨result,hruns⟩ : ∃ result, ∀ fuel > content.length,
        (tokenWindows t.count content maxTokens overlapTokens
          (offsetsFrom bytes 0 (t.encode content)) (t.encode content).length).run fuel ⟨0,0,0⟩ =
            some result := tokenWindows_end hb
    have hcall : ∀ fuel, t.splitByTokenLimit content maxTokens overlapTokens ratio fuel =
        (tokenWindows t.count content maxTokens overlapTokens
          (offsetsFrom bytes 0 (t.encode content)) (t.encode content).length).run fuel ⟨0,0,0⟩ := by
      intro fuel
      rw [Tiktoken.splitByTokenLimit,if_neg hnil]
      refine (if_neg hfits).trans ?_
      rw [hcontract.decoded]
      exact if_pos rfl
    have hcalls : ∀ fuel > content.length,
        t.splitByTokenLimit content maxTokens overlapTokens ratio fuel = some result :=
      fun fuel hfuel => (hcall fuel).trans (hruns fuel hfuel)
    have hrun := hruns _ (Nat.lt_succ_self _)
    cases result with
    | error e =>
      refine ⟨fun _ => .inr (.inl ⟨_,e,hcalls _ (Nat.lt_succ_self _)⟩),fun _ => ?_⟩
      refine .of_run hcalls (fun _ hok => nomatch hok) fun e' he => ?_
      obtain ⟨s,-,-,hstep⟩ := Loop.raises_at hrun
      exact acceptedWindow_error hempty (Results.map_error hstep)
    | ok spans =>
      have hcovers := tokenWindows_coversFrom_iff hb (Nat.zero_le _) (fun _ => .start) hrun
      constructor
      · rintro ⟨result,⟨n,hn⟩,hresult⟩
        have hsame := (hn (max n (content.length + 1)) (Nat.le_max_left _ _)).symm.trans
          (hcalls _ (Nat.lt_of_succ_le (Nat.le_max_right _ _)))
        cases hsame
        refine .inr (.inr fun text offsets hdecoded => ?_)
        rw [hcontract.decoded] at hdecoded
        cases hdecoded
        exact hcovers.mp (Covers.coversFrom hresult)
      · rintro (hfits' | ⟨fuel,e,he⟩ | haligned)
        · exact absurd hfits' hfits
        · rw [hcall] at he
          have hmore := Loop.run_mono he (Nat.le_max_left fuel (content.length + 1))
          rw [hruns _ (Nat.lt_of_succ_le (Nat.le_max_right _ _))] at hmore
          cases hmore
        · refine .of_run hcalls (fun spans' hok => ?_) fun _ herror => nomatch herror
          cases hok
          exact (hcovers.mpr (haligned _ _ (hcontract.decoded content))).covers

end

def pieceTokenizer (encode : Str → List Str) : Tiktoken Str where
  encode := encode
  decodeWithOffsets ts := some (ts.flatten, offsetsFrom utf8 0 ts)

theorem utf8_ne_nil {s : Str} (h : s ≠ []) : utf8 s ≠ [] := by
  intro hnil
  have hbegun := begun_utf8 s
  rw [hnil] at hbegun
  exact h (length_eq_zero_iff.mp hbegun.symm)

theorem pieceTokenizer_contract {encode : Str → List Str}
    (hne : ∀ content, ∀ piece ∈ encode content, piece ≠ [])
    (hflatten : ∀ content, (encode content).flatten = content) :
    (pieceTokenizer encode).FollowsContract utf8 := by
  constructor
  case nonempty => exact fun content piece hpiece => utf8_ne_nil (hne content piece hpiece)
  case encoded =>
    intro content
    have hpieces : ∀ ts : List Str, ts.flatMap utf8 = utf8 ts.flatten := by
      intro ts
      induction ts with
      | nil => rfl
      | cons piece ts ih =>
        rw [flatMap_cons,flatten_cons,utf8,utf8,flatMap_append,ih,utf8]
    exact (hpieces _).trans (congrArg utf8 (hflatten content))
  case decoded =>
    intro content
    change some ((encode content).flatten, _) = _
    rw [hflatten]

def characters (s : Str) : List Str := s.map fun c => [c]

theorem flatten_characters (s : Str) : (characters s).flatten = s := by
  induction s with
  | nil => rfl
  | cons c s ih => exact congrArg (c :: ·) ih

theorem characters_ne_nil {s piece : Str} (h : piece ∈ characters s) : piece ≠ [] := by
  obtain ⟨c,-,rfl⟩ := mem_map.mp h
  exact cons_ne_nil c []

def plainRatio : CharsPerToken := ⟨id, id⟩

/-- An encoder that takes `ab` together only before `c`. -/
def mergeBefore (s : Str) : List Str :=
  if s = ['a', 'b', 'c'] then [['a', 'b'], ['c']] else characters s

theorem mergeBefore_contract : (pieceTokenizer mergeBefore).FollowsContract utf8 := by
  apply pieceTokenizer_contract
  · intro content piece hpiece
    rw [mergeBefore] at hpiece
    split at hpiece
    · rcases mem_cons.mp hpiece with rfl | hpiece
      · exact cons_ne_nil _ _
      · rw [mem_singleton.mp hpiece]
        exact cons_ne_nil _ _
    · exact characters_ne_nil hpiece
  · intro content
    rw [mergeBefore]
    split
    · rename_i habc
      rw [habc]
      rfl
    · exact flatten_characters content

theorem mergeBefore_first :
    acceptedWindow (pieceTokenizer mergeBefore).count ['a', 'b', 'c'] 1 0 [0, 2] 2 ⟨0, 0, 0⟩ =
      .ok (0, ⟨0, 1, 1⟩, 1) := by
  have hadvance : advance ['a', 'b', 'c'] [0, 2] 2 1 0 = 1 := by
    rw [advance,if_pos (by decide),advance,if_neg (by decide)]
  have hretreat : retreatTokens (pieceTokenizer mergeBefore).count ['a', 'b', 'c'] 1 [0, 2] 2 0 0 1
      0 none = none := by
    rw [retreatTokens]
    exact (if_neg (by decide)).trans (dif_pos (by decide))
  change Retreat.search _ _ 0 0 = _
  rw [Retreat.search_zero]
  have hwindow : prefixSpanViaBoundary (pieceTokenizer mergeBefore).count ['a', 'b', 'c'] 1 [0, 2] 2
      0 0 = .ok (⟨0,1,1⟩, 1) := by
    simp only [prefixSpanViaBoundary,Nat.sub_zero,show min 2 1 = 1 from rfl,hretreat]
    change Except.ok (_, advance _ _ _ 1 0) = _
    rw [hadvance]
    rfl
  exact congrArg (Except.map _) hwindow

theorem mergeBefore_second :
    acceptedWindow (pieceTokenizer mergeBefore).count ['a', 'b', 'c'] 1 0 [0, 2] 2 ⟨1, 1, 1⟩ =
      .ok (0, ⟨2, 3, 1⟩, 2) := by
  change Retreat.search _ _ 0 0 = _
  rw [Retreat.search_zero]
  have hretreat : retreatTokens (pieceTokenizer mergeBefore).count ['a', 'b', 'c'] 1 [0, 2] 2 2 1 1
      0 none = some (⟨2,3,1⟩, 2) := by
    rw [retreatTokens]
    exact if_pos (by decide)
  have hwindow : prefixSpanViaBoundary (pieceTokenizer mergeBefore).count ['a', 'b', 'c'] 1 [0, 2] 2
      2 1 = .ok (⟨2,3,1⟩, 2) := by
    simp only [prefixSpanViaBoundary,show min (2 - 1) 1 = 1 from rfl,hretreat]
  exact congrArg (Except.map _) hwindow

theorem mergeBefore_run (fuel : ℕ) :
    (pieceTokenizer mergeBefore).splitByTokenLimit ['a', 'b', 'c'] 1 0 plainRatio (fuel + 2) =
      some (.ok [⟨0, 1, 1⟩, ⟨2, 3, 1⟩]) := by
  have hcall : (pieceTokenizer mergeBefore).splitByTokenLimit ['a', 'b', 'c'] 1 0 plainRatio
      (fuel + 2) = (tokenWindows (pieceTokenizer mergeBefore).count ['a', 'b', 'c'] 1 0 [0, 2] 2).run
        (fuel + 2) ⟨0,0,0⟩ := rfl
  have hfirst : (tokenWindows (pieceTokenizer mergeBefore).count ['a', 'b', 'c'] 1 0 [0, 2] 2).step
      ⟨0,0,0⟩ = .ok (⟨0,1,1⟩, ⟨1,1,1⟩) := congrArg (Except.map _) mergeBefore_first
  have hsecond : (tokenWindows (pieceTokenizer mergeBefore).count ['a', 'b', 'c'] 1 0 [0, 2] 2).step
      ⟨1,1,1⟩ = .ok (⟨2,3,1⟩, ⟨3,2,1⟩) := congrArg (Except.map _) mergeBefore_second
  rw [hcall,Loop.run_step rfl hfirst,Loop.run_step rfl hsecond,Loop.run_done rfl]
  rfl

end LightRAG.Chunking.SafeSplit
