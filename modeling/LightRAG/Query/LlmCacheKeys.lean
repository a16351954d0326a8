import LightRAG.Query.LlmCache

/-!
# What the keys of the LLM cache tell apart

The keys separate the kinds of calls and the arguments they are made of.
-/

namespace LightRAG.LlmCache

open QueryPrompt List Option

theorem generateCacheKey_inj {mode mode' cacheType cacheType' hash hash' : String}
    (hmode : ':' ∉ mode.toList) (hmode' : ':' ∉ mode'.toList) (hhash : ':' ∉ hash.toList)
    (hhash' : ':' ∉ hash'.toList)
    (heq : generateCacheKey mode cacheType hash = generateCacheKey mode' cacheType' hash') :
    mode = mode' ∧ cacheType = cacheType' ∧ hash = hash' := by
  have hlist : mode.toList ++ ':' :: (cacheType.toList ++ ':' :: hash.toList) =
      mode'.toList ++ ':' :: (cacheType'.toList ++ ':' :: hash'.toList) := by
    simpa [generateCacheKey] using congrArg String.toList heq
  obtain ⟨hm,hrest⟩ := Framing.append_cons_inj hmode hmode' hlist
  obtain ⟨ht,hh⟩ := Framing.append_cons_inj_right hhash hhash' hrest
  exact ⟨String.toList_injective hm,String.toList_injective ht,String.toList_injective hh⟩

theorem colon_not_mem_mode (mode : Mode) : ':' ∉ mode.text.toList := by
  cases mode <;> decide

theorem default_ne_mode (mode : Mode) : "default" ≠ mode.text := by
  cases mode <;> decide

theorem mode_injective {mode mode' : Mode} (heq : mode.text = mode'.text) : mode = mode' := by
  cases mode <;> cases mode' <;> first | rfl | exact absurd heq (by decide)

/-- What the parts of the standard library promise. -/
structure Host.Lawful {V : Type} (host : Host V) : Prop where
  serialize_injective : Function.Injective host.serialize
  serialize_ne : ∀ v, host.serialize v ≠ ""
  md5_injective : Function.Injective host.md5
  md5_colon : ∀ s, ':' ∉ (host.md5 s).toList
  loads_dumps : ∀ high low, host.loads (host.dumpsKeywords (high, low)) =
    some (.object [("high_level_keywords", .array (high.map .string)),
      ("low_level_keywords", .array (low.map .string))])
  dumps_braces : ∀ p, ∃ cs, (host.dumpsKeywords p).toList = '\x7b' :: cs ++ ['\x7d']

section Hosts

variable {V : Type} {host : Host V} (h : host.Lawful)

include h in
theorem computeArgsHash_inj {args args' : List String}
    (heq : host.computeArgsHash args = host.computeArgsHash args') : args = args' :=
  Framing.frames_injective (h.md5_injective heq)

include h in
theorem serializeCacheVariant_inj {v v' : Option V}
    (heq : host.serializeCacheVariant v = host.serializeCacheVariant v') : v = v' := by
  cases v with
  | none =>
    cases v' with
    | none => rfl
    | some v' => exact absurd heq.symm (h.serialize_ne v')
  | some v =>
    cases v' with
    | none => exact absurd heq (h.serialize_ne v)
    | some v' => rw [h.serialize_injective heq]

end Hosts

def HasClosingTag (text : String) : Prop := closeTag <:+: text.toList

theorem infix_of_isPrefixOf {tag cs : List Char} (h : tag.isPrefixOf cs = true) : tag <:+: cs :=
  (List.isPrefixOf_iff_prefix.mp h).isInfix

theorem afterOrphan_eq_none {cs : List Char} (h : ¬ closeTag <:+: cs) : afterOrphan cs = none := by
  induction cs with
  | nil => rfl
  | cons c cs ih =>
    rw [afterOrphan,if_neg fun hstart => h (infix_of_isPrefixOf hstart)]
    split
    · rfl
    · exact ih fun hin => h (infix_cons hin)

theorem afterClose_eq_none {cs : List Char} (h : ¬ closeTag <:+: cs) : afterClose cs = none := by
  induction cs with
  | nil => rfl
  | cons c cs ih =>
    rw [afterClose,if_neg fun hstart => h (infix_of_isPrefixOf hstart)]
    exact ih fun hin => h (infix_cons hin)

theorem removeBlocks_eq_self (n : ℕ) {cs : List Char} (h : ¬ closeTag <:+: cs) :
    removeBlocks n cs = cs := by
  induction n generalizing cs with
  | zero => rfl
  | succ n ih =>
    cases cs with
    | nil => rfl
    | cons c cs =>
      have hrest : removeBlocks n cs = cs := ih fun hin => h (infix_cons hin)
      rw [removeBlocks]
      split
      · rw [afterClose_eq_none,hrest]
        exact fun hin => h (hin.trans (drop_suffix _ _).isInfix)
      · rw [hrest]

theorem removeThinkTags_eq_self {text : String} (h : ¬ HasClosingTag text)
    (hstrip : Text.strip text = text) : removeThinkTags text = text := by
  rw [removeThinkTags,afterOrphan_eq_none h,getD_none,removeBlocks_eq_self _ h,
    String.ofList_toList,hstrip]

def Clean (keywords : List String) : Prop := ∀ k ∈ keywords, Text.strip k = k ∧ k ≠ ""

theorem clean_cleanKeywords (values : List Json) : Clean (cleanKeywords values) := by
  intro k hk
  obtain ⟨hin,hne⟩ := mem_filter.mp hk
  obtain ⟨value,-,hvalue⟩ := mem_filterMap.mp hin
  refine ⟨?_,by simpa using hne⟩
  cases value with
  | string s =>
    obtain rfl := some.inj hvalue
    exact Text.strip_strip s
  | _ => cases hvalue

theorem clean_normalizeKeywordList (rawValues : Option Json) :
    Clean (normalizeKeywordList rawValues) := by
  unfold normalizeKeywordList
  split
  · exact clean_cleanKeywords _
  · exact clean_cleanKeywords _
  · exact fun k hk => absurd hk not_mem_nil

theorem cleanKeywords_of_clean {keywords : List String} (h : Clean keywords) :
    cleanKeywords (keywords.map .string) = keywords := by
  unfold cleanKeywords
  induction keywords with
  | nil => rfl
  | cons k ks ih =>
    obtain ⟨hstrip,hne⟩ := h k mem_cons_self
    have hks := ih fun k' hk' => h k' (mem_cons_of_mem _ hk')
    simp only [map_cons,filterMap_cons,hstrip,filter_cons,hne,ne_eq,
      not_false_eq_true,decide_true,if_true]
    rw [hks]

variable {V : Type} {host : Host V}

theorem clean_parsed {text : String} {found : List String × List String}
    (h : parseKeywordsPayload host text = some found) : Clean found.1 ∧ Clean found.2 := by
  unfold parseKeywordsPayload at h
  dsimp only at h
  split at h
  · obtain rfl := some.inj h
    exact ⟨clean_normalizeKeywordList _,clean_normalizeKeywordList _⟩
  · cases h

theorem clean_extracted (host : Host V) (text : String) :
    Clean (extractedKeywords host text).1 ∧ Clean (extractedKeywords host text).2 := by
  unfold extractedKeywords
  cases hparsed : parseKeywordsPayload host _ with
  | none => exact ⟨fun k hk => absurd hk not_mem_nil,fun k hk => absurd hk not_mem_nil⟩
  | some found => exact clean_parsed hparsed

theorem parse_dumpsKeywords (h : host.Lawful) {high low : List String} (hhigh : Clean high)
    (hlow : Clean low) (htag : ¬ HasClosingTag (host.dumpsKeywords (high, low))) :
    parseKeywordsPayload host (host.dumpsKeywords (high, low)) = some (high, low) := by
  obtain ⟨cs,hbraces⟩ := h.dumps_braces (high, low)
  have hstrip : Text.strip (host.dumpsKeywords (high, low)) = host.dumpsKeywords (high, low) := by
    apply Text.strip_eq_self
    · intro c hc
      rw [hbraces] at hc
      obtain rfl := some.inj hc
      rfl
    · intro c hc
      rw [hbraces,List.getLast?_append] at hc
      obtain rfl := some.inj hc
      rfl
  have hunfenced : stripMarkdownCodeFence (host.dumpsKeywords (high, low)) =
      host.dumpsKeywords (high, low) := by
    rw [stripMarkdownCodeFence,hstrip,hbraces]
    rfl
  unfold parseKeywordsPayload
  simp only [removeThinkTags_eq_self htag hstrip,hunfenced,h.loads_dumps,orElse_some]
  have hget : (Json.object [("high_level_keywords", .array (high.map .string)),
      ("low_level_keywords", .array (low.map .string))]).get "high_level_keywords" =
        some (.array (high.map .string)) := by
    simp [Json.get]
  have hget' : (Json.object [("high_level_keywords", .array (high.map .string)),
      ("low_level_keywords", .array (low.map .string))]).get "low_level_keywords" =
        some (.array (low.map .string)) := by
    simp [Json.get]
  rw [hget,hget',normalizeKeywordList,normalizeKeywordList,cleanKeywords_of_clean hhigh,
    cleanKeywords_of_clean hlow]

end LightRAG.LlmCache

/-!
## Questions that are keyed alike

The arguments of an answer's key determine every input of its prompt, but for the difference between
no response type and the text `None`.
-/

namespace LightRAG.LlmCache

open QueryPrompt List

variable {V : Type} {host : Host V}

theorem resolveUserPrompt_ext {userPrompt userPrompt' userStart userStart' : Option String}
    {disable disable' : Bool} (htext : (resolveUserPrompt userPrompt userStart disable).text =
      (resolveUserPrompt userPrompt' userStart' disable').text) :
    resolveUserPrompt userPrompt userStart disable =
      resolveUserPrompt userPrompt' userStart' disable' := by
  unfold resolveUserPrompt at htext ⊢
  dsimp only at htext ⊢
  rw [htext]

def withUserPrompt (p : QueryParam) (userPrompt : Option String) (disablePrefix : Bool) :
    QueryParam :=
  { p with userPrompt := userPrompt, disableUserPromptPrefix := disablePrefix }

variable {userPrompt : Option String} {disable : Bool}

theorem kgPrompt_congr {q : KgQuery} (huser : Request.effectiveUserPrompt
    { q.toRequest with param := withUserPrompt q.param userPrompt disable } =
      q.effectiveUserPrompt) :
    KgQuery.prompt { q with param := withUserPrompt q.param userPrompt disable } = q.prompt := by
  have hpromptOf : KgQuery.promptOf
      { q with param := withUserPrompt q.param userPrompt disable } = q.promptOf := by
    unfold KgQuery.promptOf
    rw [huser]
    rfl
  have htokens : KgQuery.availableChunkTokens
      { q with param := withUserPrompt q.param userPrompt disable } = q.availableChunkTokens := by
    unfold KgQuery.availableChunkTokens
    rw [huser]
    rfl
  have hcontext : KgQuery.buildContextStr
      { q with param := withUserPrompt q.param userPrompt disable } = q.buildContextStr := by
    unfold KgQuery.buildContextStr
    rw [htokens]
    rfl
  unfold KgQuery.prompt
  rw [hcontext,hpromptOf]
  rfl

theorem naivePrompt_congr {q : NaiveQuery} (huser : Request.effectiveUserPrompt
    { q.toRequest with param := withUserPrompt q.param userPrompt disable } =
      q.effectiveUserPrompt) :
    NaiveQuery.prompt { q with param := withUserPrompt q.param userPrompt disable } =
      q.prompt := by
  have hpromptOf : NaiveQuery.promptOf
      { q with param := withUserPrompt q.param userPrompt disable } = q.promptOf := by
    unfold NaiveQuery.promptOf
    rw [huser]
    rfl
  have htokens : NaiveQuery.availableChunkTokens
      { q with param := withUserPrompt q.param userPrompt disable } = q.availableChunkTokens := by
    unfold NaiveQuery.availableChunkTokens
    rw [huser]
    rfl
  unfold NaiveQuery.prompt
  rw [htokens,hpromptOf]
  rfl

/-- Two questions agree in what the key of an answer holds, but for their response types. -/
structure KeyedAlike (host : Host V) (q q' : Question) : Prop where
  mode : q.param.mode = q'.param.mode
  query : q.query = q'.query
  topK : q.param.topK = q'.param.topK
  chunkTopK : q.param.chunkTopK = q'.param.chunkTopK
  maxEntityTokens : q.param.maxEntityTokens = q'.param.maxEntityTokens
  maxRelationTokens : q.param.maxRelationTokens = q'.param.maxRelationTokens
  maxTotalTokens : q.param.maxTotalTokens = q'.param.maxTotalTokens
  userPrompt : q.effectiveUserPrompt host = q'.effectiveUserPrompt host
  enableRerank : q.param.enableRerank = q'.param.enableRerank
  systemPrompt : truthy q.systemPrompt = truthy q'.systemPrompt

section KeyedAlike

variable {q q' : Question}

theorem KeyedAlike.symm (h : KeyedAlike host q q') : KeyedAlike host q' q :=
  ⟨h.mode.symm,h.query.symm,h.topK.symm,h.chunkTopK.symm,h.maxEntityTokens.symm,
    h.maxRelationTokens.symm,h.maxTotalTokens.symm,h.userPrompt.symm,h.enableRerank.symm,
    h.systemPrompt.symm⟩

theorem repr_ne_none (n : ℕ) : Nat.repr n ≠ "None" := by
  intro heq
  have hin : 'N' ∈ Nat.toDigits 10 n := by
    have hlist := congrArg String.toList heq
    simp only [Nat.repr,String.toList_ofList] at hlist
    rw [hlist]
    decide
  have hdigit := Nat.isDigit_of_mem_toDigits (by decide) (by decide) hin
  cases hdigit

theorem limit_injective {n n' : Option ℕ}
    (heq : (n.map Nat.repr).getD "None" = (n'.map Nat.repr).getD "None") : n = n' := by
  cases n with
  | none =>
    cases n' with
    | none => rfl
    | some n' => exact absurd heq.symm (repr_ne_none n')
  | some n =>
    cases n' with
    | none => exact absurd heq (repr_ne_none n)
    | some n' => rw [Framing.repr_injective heq]

theorem textOfBool_injective {b b' : Bool} (heq : textOfBool b = textOfBool b') : b = b' := by
  cases b <;> cases b' <;> first | rfl | exact absurd heq (by decide)

theorem trailingArgs_inj (heq : q.trailingArgs host = q'.trailingArgs host) :
    truthy q.systemPrompt = truthy q'.systemPrompt := by
  have hstart := append_cancel_right heq
  cases hs : truthy q.systemPrompt with
  | none =>
    cases hs' : truthy q'.systemPrompt with
    | none => rfl
    | some s' =>
      rw [hs,hs'] at hstart
      cases hstart
  | some s =>
    cases hs' : truthy q'.systemPrompt with
    | none =>
      rw [hs,hs'] at hstart
      cases hstart
    | some s' =>
      rw [hs,hs'] at hstart
      cases hstart
      rfl

theorem keyedAlike_of_args (hleading : q.leadingArgs = q'.leadingArgs)
    (huser : (q.effectiveUserPrompt host).text = (q'.effectiveUserPrompt host).text)
    (hrerank : textOfBool q.param.enableRerank = textOfBool q'.param.enableRerank)
    (htrailing : q.trailingArgs host = q'.trailingArgs host) :
    KeyedAlike host q q' ∧ q.param.responseType.getD "None" =
      q'.param.responseType.getD "None" := by
  simp only [Question.leadingArgs,List.cons.injEq,and_true,true_and] at hleading
  obtain ⟨hmode,hquery,hresponse,htop,hchunk,hentity,hrelation,htotal⟩ := hleading
  constructor
  · exact {
      mode := mode_injective hmode
      query := hquery
      topK := Framing.repr_injective htop
      chunkTopK := limit_injective hchunk
      maxEntityTokens := Framing.repr_injective hentity
      maxRelationTokens := Framing.repr_injective hrelation
      maxTotalTokens := Framing.repr_injective htotal
      userPrompt := resolveUserPrompt_ext huser
      enableRerank := textOfBool_injective hrerank
      systemPrompt := trailingArgs_inj htrailing }
  · exact hresponse

theorem keyedAlike_of_kgArgs {low high low' high' : String}
    (heq : q.kgArgs host low high = q'.kgArgs host low' high') :
    low = low' ∧ high = high' ∧ KeyedAlike host q q' ∧
      q.param.responseType.getD "None" = q'.param.responseType.getD "None" := by
  obtain ⟨hstart,htrailing⟩ := append_inj heq rfl
  obtain ⟨hleading,hmiddle⟩ := append_inj hstart rfl
  simp only [List.cons.injEq] at hmiddle
  exact ⟨hmiddle.2.1,hmiddle.1,keyedAlike_of_args hleading hmiddle.2.2.1 hmiddle.2.2.2.1
    htrailing⟩

theorem keyedAlike_of_naiveArgs (heq : q.naiveArgs host = q'.naiveArgs host) :
    KeyedAlike host q q' ∧ q.param.responseType.getD "None" =
      q'.param.responseType.getD "None" := by
  obtain ⟨hstart,htrailing⟩ := append_inj heq rfl
  obtain ⟨hleading,hmiddle⟩ := append_inj hstart rfl
  simp only [List.cons.injEq] at hmiddle
  exact keyedAlike_of_args hleading hmiddle.1 hmiddle.2.1 htrailing

theorem kgArgs_ne_naiveArgs (low high : String) : q.kgArgs host low high ≠ q'.naiveArgs host := by
  intro heq
  have hlength := congrArg List.length heq
  simp only [Question.kgArgs,Question.naiveArgs,Question.leadingArgs,Question.trailingArgs,
    length_append,length_cons] at hlength
  split at hlength <;> split at hlength <;> simp at hlength

theorem KeyedAlike.kgPrompt_eq (h : KeyedAlike host q q')
    (hresponse : q.param.responseType = q'.param.responseType) (low high : String) :
    (q.kgQuery host low high).prompt = (q'.kgQuery host low high).prompt := by
  have hsame : q.kgQuery host low high = { q'.kgQuery host low high with
      param := withUserPrompt (q'.kgQuery host low high).param q.param.userPrompt
        q.param.disableUserPromptPrefix } := by
    obtain ⟨query,nonempty,param,systemPrompt⟩ := q
    obtain ⟨hmode,rfl,htop,hchunk,hentity,hrelation,htotal,-,hrerank,hsystem⟩ := h
    dsimp only at hmode htop hchunk hentity hrelation htotal hrerank hsystem hresponse
    simp only [Question.kgQuery,Question.request,withUserPrompt,hmode,htop,hchunk,hrerank,hsystem]
    cases hp : param.toQueryParam
    simp_all
  rw [hsame]
  exact kgPrompt_congr h.userPrompt

theorem KeyedAlike.naivePrompt_eq (h : KeyedAlike host q q')
    (hresponse : q.param.responseType = q'.param.responseType) :
    (q.naiveQuery host).prompt = (q'.naiveQuery host).prompt := by
  have hsame : q.naiveQuery host = { q'.naiveQuery host with
      param := withUserPrompt (q'.naiveQuery host).param q.param.userPrompt
        q.param.disableUserPromptPrefix } := by
    obtain ⟨query,nonempty,param,systemPrompt⟩ := q
    obtain ⟨hmode,rfl,htop,hchunk,hentity,hrelation,htotal,-,hrerank,hsystem⟩ := h
    dsimp only at hmode htop hchunk hentity hrelation htotal hrerank hsystem hresponse
    simp only [Question.naiveQuery,Question.request,withUserPrompt,hmode,htop,hchunk,
      hrerank,hsystem]
    cases hp : param.toQueryParam
    simp_all
  rw [hsame]
  exact naivePrompt_congr h.userPrompt

end KeyedAlike

end LightRAG.LlmCache
