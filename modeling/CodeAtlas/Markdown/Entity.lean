import CodeAtlas.Text.Blank
import CodeAtlas.Text.Digit

/-!
# Character references

A character may be written by its number, in decimal or hexadecimal digits, or by
its name: `&#65;`, `&#x41;`, `&copy;`. The names are those of the HTML standard.
-/

namespace CodeAtlas.Markdown

open Text

/-- The names of characters in the order of their code points. A number in hexadecimal
    digits is the code point of the word behind it, and each further word belongs to the
    next one. A character has several names, some of which stand for it with others
    behind it; a dash says that it has none. -/
def entityNames : List String := [
  "9 Tab NewLine 21 excl QUOT=quot num dollar percnt AMP=amp apos lpar rpar ast=midast plus",
  "comma - period sol 3a colon semi LT=lt=nvlt+20d2 bne+20e5=equals GT=gt=nvgt+20d2 quest commat",
  "5b lbrack=lsqb bsol rbrack=rsqb Hat UnderBar=lowbar DiacriticalGrave=grave 66 fjlig+6a 7b",
  "lbrace=lcub VerticalLine=verbar=vert rbrace=rcub 0a0 NonBreakingSpace=nbsp iexcl cent pound",
  "curren yen brvbar sect Dot=DoubleDot=die=uml COPY=copy ordf laquo not shy REG=circledR=reg",
  "macr=strns deg PlusMinus=plusmn=pm sup2 sup3 DiacriticalAcute=acute micro para",
  "CenterDot=centerdot=middot Cedilla=cedil sup1 ordm raquo frac14 frac12=half frac34 iquest",
  "Agrave Aacute Acirc Atilde Auml Aring=angst AElig Ccedil Egrave Eacute Ecirc Euml Igrave",
  "Iacute Icirc Iuml ETH Ntilde Ograve Oacute Ocirc Otilde Ouml times Oslash Ugrave Uacute Ucirc",
  "Uuml Yacute THORN szlig agrave aacute acirc atilde auml aring aelig ccedil egrave eacute",
  "ecirc euml igrave iacute icirc iuml eth ntilde ograve oacute ocirc otilde ouml div=divide",
  "oslash ugrave uacute ucirc uuml yacute thorn yuml Amacr amacr Abreve abreve Aogon aogon",
  "Cacute cacute Ccirc ccirc Cdot cdot Ccaron ccaron Dcaron dcaron Dstrok dstrok Emacr emacr - -",
  "Edot edot Eogon eogon Ecaron ecaron Gcirc gcirc Gbreve gbreve Gdot gdot Gcedil - Hcirc hcirc",
  "Hstrok hstrok Itilde itilde Imacr imacr - - Iogon iogon Idot imath=inodot IJlig ijlig Jcirc",
  "jcirc Kcedil kcedil kgreen Lacute lacute Lcedil lcedil Lcaron lcaron Lmidot lmidot Lstrok",
  "lstrok Nacute nacute Ncedil ncedil Ncaron ncaron napos ENG eng Omacr omacr - - Odblac odblac",
  "OElig oelig Racute racute Rcedil rcedil Rcaron rcaron Sacute sacute Scirc scirc Scedil scedil",
  "Scaron scaron Tcedil tcedil Tcaron tcaron Tstrok tstrok Utilde utilde Umacr umacr Ubreve",
  "ubreve Uring uring Udblac udblac Uogon uogon Wcirc wcirc Ycirc ycirc Yuml Zacute zacute Zdot",
  "zdot Zcaron zcaron 192 fnof 1b5 imped 1f5 gacute 237 jmath 2c6 circ Hacek=caron 2d8",
  "Breve=breve DiacriticalDot=dot ring ogon DiacriticalTilde=tilde DiacriticalDoubleAcute=dblac",
  "311 DownBreve 391 Alpha Beta Gamma Delta Epsilon Zeta Eta Theta Iota Kappa Lambda Mu Nu Xi",
  "Omicron Pi Rho - Sigma Tau Upsilon Phi Chi Psi Omega=ohm 3b1 alpha beta gamma delta",
  "epsi=epsilon zeta eta theta iota kappa lambda mu nu xi omicron pi rho sigmaf=sigmav=varsigma",
  "sigma tau upsi=upsilon phi chi psi omega 3d1 thetasym=thetav=vartheta Upsi=upsih - -",
  "phiv=straightphi=varphi piv=varpi 3dc Gammad digamma=gammad 3f0 kappav=varkappa rhov=varrho",
  "3f5 epsiv=straightepsilon=varepsilon backepsilon=bepsi 401 IOcy DJcy GJcy Jukcy DScy Iukcy",
  "YIcy Jsercy LJcy NJcy TSHcy KJcy - Ubrcy DZcy Acy Bcy Vcy Gcy Dcy IEcy ZHcy Zcy Icy Jcy Kcy",
  "Lcy Mcy Ncy Ocy Pcy Rcy Scy Tcy Ucy Fcy KHcy TScy CHcy SHcy SHCHcy HARDcy Ycy SOFTcy Ecy YUcy",
  "YAcy acy bcy vcy gcy dcy iecy zhcy zcy icy jcy kcy lcy mcy ncy ocy pcy rcy scy tcy ucy fcy",
  "khcy tscy chcy shcy shchcy hardcy ycy softcy ecy yucy yacy - iocy djcy gjcy jukcy dscy iukcy",
  "yicy jsercy ljcy njcy tshcy kjcy - ubrcy dzcy 2002 ensp emsp emsp13 emsp14 - numsp puncsp",
  "ThinSpace=thinsp VeryThinSpace=hairsp",
  "NegativeMediumSpace=NegativeThickSpace=NegativeThinSpace=NegativeVeryThinSpace=ZeroWidthSpace",
  "zwnj zwj lrm rlm dash=hyphen - - ndash mdash horbar Verbar=Vert - OpenCurlyQuote=lsquo",
  "CloseCurlyQuote=rsquo=rsquor lsquor=sbquo - OpenCurlyDoubleQuote=ldquo",
  "CloseCurlyDoubleQuote=rdquo=rdquor bdquo=ldquor - dagger Dagger=ddagger bull=bullet - - nldr",
  "hellip=mldr 2030 permil pertenk prime Prime tprime backprime=bprime 2039 lsaquo rsaquo 203e",
  "OverBar=oline - - caret - hybull frasl 204f bsemi 2057 qprime 205f",
  "MediumSpace=ThickSpace+200a NoBreak ApplyFunction=af InvisibleTimes=it InvisibleComma=ic 20ac",
  "euro 20db TripleDot=tdot DotDot 2102 Copf=complexes - - incare 210a gscr",
  "HilbertSpace=Hscr=hamilt Hfr=Poincareplane Hopf=quaternions planckh hbar=hslash=planck=plankv",
  "Iscr=imagline Ifr=Im=image=imagpart Laplacetrf=Lscr=lagran ell - Nopf=naturals numero copysr",
  "weierp=wp Popf=primes Qopf=rationals Rscr=realine Re=Rfr=real=realpart Ropf=reals rx 2122",
  "TRADE=trade - Zopf=integers - - mho Zfr=zeetrf iiota - - Bernoullis=Bscr=bernou Cayleys=Cfr -",
  "escr Escr=expectation Fouriertrf=Fscr - Mellintrf=Mscr=phmmat order=orderof=oscr",
  "alefsym=aleph beth gimel daleth 2145 CapitalDifferentialD=DD DifferentialD=dd",
  "ExponentialE=ee=exponentiale ImaginaryI=ii 2153 frac13 frac23 frac15 frac25 frac35 frac45",
  "frac16 frac56 frac18 frac38 frac58 frac78 2190 LeftArrow=ShortLeftArrow=larr=leftarrow=slarr",
  "ShortUpArrow=UpArrow=uarr=uparrow RightArrow=ShortRightArrow=rarr=rightarrow=srarr",
  "DownArrow=ShortDownArrow=darr=downarrow LeftRightArrow=harr=leftrightarrow",
  "UpDownArrow=updownarrow=varr UpperLeftArrow=nwarr=nwarrow UpperRightArrow=nearr=nearrow",
  "LowerRightArrow=searr=searrow LowerLeftArrow=swarr=swarrow nlarr=nleftarrow nrarr=nrightarrow",
  "- nrarrw+338=rarrw=rightsquigarrow Larr=twoheadleftarrow Uarr Rarr=twoheadrightarrow Darr",
  "larrtl=leftarrowtail rarrtl=rightarrowtail LeftTeeArrow=mapstoleft UpTeeArrow=mapstoup",
  "RightTeeArrow=map=mapsto DownTeeArrow=mapstodown - hookleftarrow=larrhk hookrightarrow=rarrhk",
  "larrlp=looparrowleft looparrowright=rarrlp harrw=leftrightsquigarrow nharr=nleftrightarrow -",
  "Lsh=lsh Rsh=rsh ldsh rdsh - crarr cularr=curvearrowleft curarr=curvearrowright - -",
  "circlearrowleft=olarr circlearrowright=orarr LeftVector=leftharpoonup=lharu",
  "DownLeftVector=leftharpoondown=lhard RightUpVector=uharr=upharpoonright",
  "LeftUpVector=uharl=upharpoonleft RightVector=rharu=rightharpoonup",
  "DownRightVector=rhard=rightharpoondown RightDownVector=dharr=downharpoonright",
  "LeftDownVector=dharl=downharpoonleft RightArrowLeftArrow=rightleftarrows=rlarr",
  "UpArrowDownArrow=udarr LeftArrowRightArrow=leftrightarrows=lrarr leftleftarrows=llarr",
  "upuparrows=uuarr rightrightarrows=rrarr ddarr=downdownarrows",
  "ReverseEquilibrium=leftrightharpoons=lrhar Equilibrium=rightleftharpoons=rlhar",
  "nLeftarrow=nlArr nLeftrightarrow=nhArr nRightarrow=nrArr DoubleLeftArrow=Leftarrow=lArr",
  "DoubleUpArrow=Uparrow=uArr DoubleRightArrow=Implies=Rightarrow=rArr",
  "DoubleDownArrow=Downarrow=dArr DoubleLeftRightArrow=Leftrightarrow=hArr=iff",
  "DoubleUpDownArrow=Updownarrow=vArr nwArr neArr seArr swArr Lleftarrow=lAarr Rrightarrow=rAarr",
  "- zigrarr 21e4 LeftArrowBar=larrb RightArrowBar=rarrb 21f5 DownArrowUpArrow=duarr 21fd loarr",
  "roarr hoarr ForAll=forall comp=complement PartialD=npart+338=part Exists=exist",
  "NotExists=nexist=nexists empty=emptyset=emptyv=varnothing - Del=nabla Element=in=isin=isinv",
  "NotElement=notin=notinva - ReverseElement=SuchThat=ni=niv NotReverseElement=notni=notniva - -",
  "Product=prod Coproduct=coprod Sum=sum minus MinusPlus=mnplus=mp dotplus=plusdo -",
  "Backslash=setminus=setmn=smallsetminus=ssetmn lowast SmallCircle=compfn - Sqrt=radic - -",
  "Proportional=prop=propto=varpropto=vprop infin angrt ang=angle=nang+20d2 angmsd=measuredangle",
  "angsph VerticalBar=mid=shortmid=smid NotVerticalBar=nmid=nshortmid=nsmid",
  "DoubleVerticalBar=par=parallel=shortparallel=spar",
  "NotDoubleVerticalBar=npar=nparallel=nshortparallel=nspar and=wedge or=vee cap=caps+fe00",
  "cup=cups+fe00 Integral=int Int iiint=tint ContourIntegral=conint=oint",
  "Conint=DoubleContourIntegral Cconint cwint ClockwiseContourIntegral=cwconint",
  "CounterClockwiseContourIntegral=awconint Therefore=there4=therefore Because=becaus=because",
  "ratio Colon=Proportion dotminus=minusd - mDDot homtht Tilde=nvsim+20d2=sim=thicksim=thksim",
  "backsim=bsim=race+331 ac=acE+333=mstpos acd VerticalTilde=wr=wreath NotTilde=nsim",
  "EqualTilde=NotEqualTilde+338=eqsim=esim=nesim+338 TildeEqual=sime=simeq",
  "NotTildeEqual=nsime=nsimeq TildeFullEqual=cong simne NotTildeFullEqual=ncong",
  "TildeTilde=ap=approx=asymp=thickapprox=thkap NotTildeTilde=nap=napprox ape=approxeq",
  "apid=napid+338 backcong=bcong CupCap=asympeq=nvap+20d2",
  "Bumpeq=HumpDownHump=NotHumpDownHump+338=bump=nbump+338",
  "HumpEqual=NotHumpEqual+338=bumpe=bumpeq=nbumpe+338 DotEqual=doteq=esdot=nedot+338",
  "doteqdot=eDot efDot=fallingdotseq erDot=risingdotseq Assign=colone=coloneq ecolon=eqcolon",
  "ecir=eqcirc circeq=cire - wedgeq veeeq - triangleq=trie - - equest=questeq NotEqual=ne",
  "Congruent=bnequiv+20e5=equiv NotCongruent=nequiv - le=leq=nvle+20d2",
  "GreaterEqual=ge=geq=nvge+20d2 LessFullEqual=lE=leqq=nlE+338=nleqq+338",
  "GreaterFullEqual=NotGreaterFullEqual+338=gE=geqq=ngE+338=ngeqq+338",
  "lnE=lneqq=lvertneqq+fe00=lvnE+fe00 gnE=gneqq=gvertneqq+fe00=gvnE+fe00",
  "Lt=NestedLessLess=NotLessLess+338=ll=nLt+20d2=nLtv+338",
  "Gt=NestedGreaterGreater=NotGreaterGreater+338=gg=nGt+20d2=nGtv+338 between=twixt NotCupCap",
  "NotLess=nless=nlt NotGreater=ngt=ngtr NotLessEqual=nle=nleq NotGreaterEqual=nge=ngeq",
  "LessTilde=lesssim=lsim GreaterTilde=gsim=gtrsim NotLessTilde=nlsim NotGreaterTilde=ngsim",
  "LessGreater=lessgtr=lg GreaterLess=gl=gtrless NotLessGreater=ntlg NotGreaterLess=ntgl",
  "Precedes=pr=prec Succeeds=sc=succ PrecedesSlantEqual=prcue=preccurlyeq",
  "SucceedsSlantEqual=sccue=succcurlyeq PrecedesTilde=precsim=prsim",
  "NotSucceedsTilde+338=SucceedsTilde=scsim=succsim NotPrecedes=npr=nprec NotSucceeds=nsc=nsucc",
  "NotSubset+20d2=nsubset+20d2=sub=subset=vnsub+20d2",
  "NotSuperset+20d2=Superset=nsupset+20d2=sup=supset=vnsup+20d2 nsub nsup",
  "SubsetEqual=sube=subseteq SupersetEqual=supe=supseteq NotSubsetEqual=nsube=nsubseteq",
  "NotSupersetEqual=nsupe=nsupseteq subne=subsetneq=varsubsetneq+fe00=vsubne+fe00",
  "supne=supsetneq=varsupsetneq+fe00=vsupne+fe00 - cupdot UnionPlus=uplus",
  "NotSquareSubset+338=SquareSubset=sqsub=sqsubset",
  "NotSquareSuperset+338=SquareSuperset=sqsup=sqsupset SquareSubsetEqual=sqsube=sqsubseteq",
  "SquareSupersetEqual=sqsupe=sqsupseteq SquareIntersection=sqcap=sqcaps+fe00",
  "SquareUnion=sqcup=sqcups+fe00 CirclePlus=oplus CircleMinus=ominus CircleTimes=otimes osol",
  "CircleDot=odot circledcirc=ocir circledast=oast - circleddash=odash boxplus=plusb",
  "boxminus=minusb boxtimes=timesb dotsquare=sdotb RightTee=vdash LeftTee=dashv DownTee=top",
  "UpTee=bot=bottom=perp - models DoubleRightTee=vDash Vdash Vvdash VDash nvdash nvDash nVdash",
  "nVDash prurel - LeftTriangle=vartriangleleft=vltri RightTriangle=vartriangleright=vrtri",
  "LeftTriangleEqual=ltrie=nvltrie+20d2=trianglelefteq",
  "RightTriangleEqual=nvrtrie+20d2=rtrie=trianglerighteq origof imof multimap=mumap hercon",
  "intcal=intercal veebar - barvee angrtvb lrtri Wedge=bigwedge=xwedge Vee=bigvee=xvee",
  "Intersection=bigcap=xcap Union=bigcup=xcup Diamond=diam=diamond sdot Star=sstarf",
  "divideontimes=divonx bowtie ltimes rtimes leftthreetimes=lthree rightthreetimes=rthree",
  "backsimeq=bsime curlyvee=cuvee curlywedge=cuwed Sub=Subset Sup=Supset Cap Cup fork=pitchfork",
  "epar lessdot=ltdot gtdot=gtrdot Ll=nLl+338 Gg=ggg=nGg+338",
  "LessEqualGreater=leg=lesg+fe00=lesseqgtr GreaterEqualLess=gel=gesl+fe00=gtreqless - -",
  "cuepr=curlyeqprec cuesc=curlyeqsucc NotPrecedesSlantEqual=nprcue NotSucceedsSlantEqual=nsccue",
  "NotSquareSubsetEqual=nsqsube NotSquareSupersetEqual=nsqsupe - - lnsim gnsim precnsim=prnsim",
  "scnsim=succnsim NotLeftTriangle=nltri=ntriangleleft NotRightTriangle=nrtri=ntriangleright",
  "NotLeftTriangleEqual=nltrie=ntrianglelefteq NotRightTriangleEqual=nrtrie=ntrianglerighteq",
  "vellip ctdot utdot dtdot disin isinsv isins isindot=notindot+338 notinvc notinvb -",
  "isinE=notinE+338 nisd xnis nis notnivc notnivb 2305 barwed=barwedge Barwed=doublebarwedge -",
  "LeftCeiling=lceil RightCeiling=rceil LeftFloor=lfloor RightFloor=rfloor drcrop dlcrop urcrop",
  "ulcrop bnot - profline profsurf - telrec target 231c ulcorn=ulcorner urcorn=urcorner",
  "dlcorn=llcorner drcorn=lrcorner - - frown=sfrown smile=ssmile 232d cylcty profalar 2336",
  "topbot 233d ovbar - solbar 237c angzarr 23b0 lmoust=lmoustache rmoust=rmoustache - -",
  "OverBracket=tbrk UnderBracket=bbrk bbrktbrk 23dc OverParenthesis UnderParenthesis OverBrace",
  "UnderBrace - - trpezium 23e7 elinters 2423 blank 24c8 circledS=oS 2500 HorizontalLine=boxh -",
  "boxv 250c boxdr 2510 boxdl 2514 boxur 2518 boxul 251c boxvr 2524 boxvl 252c boxhd 2534 boxhu",
  "253c boxvh 2550 boxH boxV boxdR boxDr boxDR boxdL boxDl boxDL boxuR boxUr boxUR boxuL boxUl",
  "boxUL boxvR boxVr boxVR boxvL boxVl boxVL boxHd boxhD boxHD boxHu boxhU boxHU boxvH boxVh",
  "boxVH 2580 uhblk 2584 lhblk 2588 block 2591 blk14 blk12 blk34 25a1 Square=squ=square 25aa",
  "FilledVerySmallSquare=blacksquare=squarf=squf EmptyVerySmallSquare - rect marker - - fltns -",
  "bigtriangleup=xutri blacktriangle=utrif triangle=utri - - blacktriangleright=rtrif",
  "rtri=triangleright 25bd bigtriangledown=xdtri blacktriangledown=dtrif dtri=triangledown - -",
  "blacktriangleleft=ltrif ltri=triangleleft 25ca loz=lozenge cir 25ec tridot - - bigcirc=xcirc",
  "25f8 ultri urtri lltri EmptySmallSquare FilledSmallSquare 2605 bigstar=starf star 260e phone",
  "2640 female - male 2660 spades=spadesuit - - clubs=clubsuit - hearts=heartsuit",
  "diamondsuit=diams 266a sung - - flat natur=natural sharp 2713 check=checkmark 2717 cross 2720",
  "malt=maltese 2736 sext 2758 VerticalSeparator 2772 lbbrk rbbrk 27c8 bsolhsub suphsol 27e6",
  "LeftDoubleBracket=lobrk RightDoubleBracket=robrk LeftAngleBracket=lang=langle",
  "RightAngleBracket=rang=rangle Lang Rang loang roang 27f5 LongLeftArrow=longleftarrow=xlarr",
  "LongRightArrow=longrightarrow=xrarr LongLeftRightArrow=longleftrightarrow=xharr",
  "DoubleLongLeftArrow=Longleftarrow=xlArr DoubleLongRightArrow=Longrightarrow=xrArr",
  "DoubleLongLeftRightArrow=Longleftrightarrow=xhArr - longmapsto=xmap - - dzigrarr 2902 nvlArr",
  "nvrArr nvHarr Map 290c lbarr bkarow=rbarr lBarr dbkarow=rBarr RBarr=drbkarow DDotrahd",
  "UpArrowBar DownArrowBar - - Rarrtl - - latail ratail lAtail rAtail larrfs rarrfs larrbfs",
  "rarrbfs - - nwarhk nearhk hksearow=searhk hkswarow=swarhk nwnear nesear=toea seswar=tosa",
  "swnwar 2933 nrarrc+338=rarrc - cudarrr ldca rdca cudarrl larrpl - - curarrm cularrp 2945",
  "rarrpl - - harrcir Uarrocir lurdshar ldrushar - - LeftRightVector RightUpDownVector",
  "DownLeftRightVector LeftUpDownVector LeftVectorBar RightVectorBar RightUpVectorBar",
  "RightDownVectorBar DownLeftVectorBar DownRightVectorBar LeftUpVectorBar LeftDownVectorBar",
  "LeftTeeVector RightTeeVector RightUpTeeVector RightDownTeeVector DownLeftTeeVector",
  "DownRightTeeVector LeftUpTeeVector LeftDownTeeVector lHar uHar rHar dHar luruhar ldrdhar",
  "ruluhar rdldhar lharul llhard rharul lrhard UpEquilibrium=udhar ReverseUpEquilibrium=duhar",
  "RoundImplies erarr simrarr larrsim rarrsim rarrap ltlarr - gtrarr subrarr - suplarr lfisht",
  "rfisht ufisht dfisht 2985 lopar ropar 298b lbrke rbrke lbrkslu rbrksld lbrksld rbrkslu langd",
  "rangd lparlt rpargt gtlPar ltrPar 299a vzigzag - vangrt angrtvbd 29a4 ange range dwangle",
  "uwangle angmsdaa angmsdab angmsdac angmsdad angmsdae angmsdaf angmsdag angmsdah bemptyv",
  "demptyv cemptyv raemptyv laemptyv ohbar omid opar - operp - olcross odsold - olcir ofcir olt",
  "ogt cirscir cirE solb bsolb 29c9 boxbox 29cd trisb rtriltri",
  "LeftTriangleBar=NotLeftTriangleBar+338 NotRightTriangleBar+338=RightTriangleBar 29dc iinfin",
  "infintie nvinfin 29e3 eparsl smeparsl eqvparsl 29eb blacklozenge=lozf 29f4 RuleDelayed - dsol",
  "2a00 bigodot=xodot bigoplus=xoplus bigotimes=xotime - biguplus=xuplus - bigsqcup=xsqcup 2a0c",
  "iiiint=qint fpartint - - cirfnint awint rppolint scpolint npolint pointint quatint intlarhk",
  "2a22 pluscir plusacir simplus plusdu plussim plustwo - mcomma minusdu - - loplus roplus Cross",
  "timesd timesbar - smashp lotimes rotimes otimesas Otimes odiv triplus triminus tritime",
  "intprod=iprod - - amalg capdot - ncup ncap capand cupor cupcap capcup cupbrcap capbrcup",
  "cupcup capcap ccups ccaps - - ccupssm - - And Or andand oror orslope andslope - andv orv andd",
  "ord - wedbar 2a66 sdote 2a6a simdot - - congdot=ncongdot+338 easter apacir apE=napE+338 eplus",
  "pluse Esim Colone Equal - ddotseq=eDDot equivDD ltcir gtcir ltquest gtquest",
  "LessSlantEqual=NotLessSlantEqual+338=leqslant=les=nleqslant+338=nles+338",
  "GreaterSlantEqual=NotGreaterSlantEqual+338=geqslant=ges=ngeqslant+338=nges+338 lesdot gesdot",
  "lesdoto gesdoto lesdotor gesdotol lap=lessapprox gap=gtrapprox lne=lneq gne=gneq",
  "lnap=lnapprox gnap=gnapprox lEg=lesseqqgtr gEl=gtreqqless lsime gsime lsimg gsiml lgE glE",
  "lesges gesles els=eqslantless egs=eqslantgtr elsdot egsdot el eg - - siml simg simlE simgE",
  "LessLess=NotNestedLessLess+338 GreaterGreater=NotNestedGreaterGreater+338 - glj gla ltcc gtcc",
  "lescc gescc smt lat smte=smtes+fe00 late=lates+fe00 bumpE",
  "NotPrecedesEqual+338=PrecedesEqual=npre+338=npreceq+338=pre=preceq",
  "NotSucceedsEqual+338=SucceedsEqual=nsce+338=nsucceq+338=sce=succeq - - prE scE precneqq=prnE",
  "scnE=succneqq prap=precapprox scap=succapprox precnapprox=prnap scnap=succnapprox Pr Sc",
  "subdot supdot subplus supplus submult supmult subedot supedot",
  "nsubE+338=nsubseteqq+338=subE=subseteqq nsupE+338=nsupseteqq+338=supE=supseteqq subsim supsim",
  "- - subnE=subsetneqq=varsubsetneqq+fe00=vsubnE+fe00",
  "supnE=supsetneqq=varsupsetneqq+fe00=vsupnE+fe00 - - csub csup csube csupe subsup supsub",
  "subsub supsup suphsub supdsub forkv topfork mlcp 2ae4 Dashv=DoubleLeftTee - Vdashl Barv vBar",
  "vBarv - Vbar Not bNot rnmid cirmid midcir topcir nhpar parsim 2afd nparsl+20e5=parsl 0fb00",
  "fflig filig fllig ffilig ffllig 1d49c Ascr - Cscr Dscr - - Gscr - - Jscr Kscr - - Nscr Oscr",
  "Pscr Qscr - Sscr Tscr Uscr Vscr Wscr Xscr Yscr Zscr ascr bscr cscr dscr - fscr - hscr iscr",
  "jscr kscr lscr mscr nscr - pscr qscr rscr sscr tscr uscr vscr wscr xscr yscr zscr 1d504 Afr",
  "Bfr - Dfr Efr Ffr Gfr - - Jfr Kfr Lfr Mfr Nfr Ofr Pfr Qfr - Sfr Tfr Ufr Vfr Wfr Xfr Yfr - afr",
  "bfr cfr dfr efr ffr gfr hfr ifr jfr kfr lfr mfr nfr ofr pfr qfr rfr sfr tfr ufr vfr wfr xfr",
  "yfr zfr Aopf Bopf - Dopf Eopf Fopf Gopf - Iopf Jopf Kopf Lopf Mopf - Oopf - - - Sopf Topf",
  "Uopf Vopf Wopf Xopf Yopf - aopf bopf copf dopf eopf fopf gopf hopf iopf jopf kopf lopf mopf",
  "nopf oopf popf qopf ropf sopf topf uopf vopf wopf xopf yopf zopf"]

/-- The characters that a name stands for if it is that of the entry, which belongs to the
    code point `n`. -/
def entryChars? (name : List Char) (n : Nat) (entry : List Char) : Option (List Char) :=
  match splitOn (· == '+') entry with
  | known :: behind =>
    if known == name then
      some (Char.ofNat n :: behind.map fun digits => Char.ofNat (hexValue digits))
    else none
  | [] => none

/-- Looks a name up among the words of the table, the next of which belongs to the code
    point `n`. -/
def lookupName? (name : List Char) (n : Nat) : List (List Char) → Option (List Char)
  | [] => none
  | word :: rest =>
    if word.head?.any Char.isDigit then lookupName? name (hexValue word) rest
    else
      match (splitOn (· == '=') word).findSome? (entryChars? name n) with
      | some chars => some chars
      | none => lookupName? name (n + 1) rest

/-- The character with the given number. Zero stands for the replacement
    character. -/
def numbered? (n : Nat) : Option Char :=
  if n = 0 then some (Char.ofNat 0xFFFD)
  else if n < 0xD800 ∨ (0xDFFF < n ∧ n < 0x110000) then some (Char.ofNat n)
  else none

/-- A reference by number, behind its sign: the digits satisfying `isDigit`, at most
    `limit` of them, and a semicolon. -/
def numericReference? (isDigit : Char → Bool) (limit : Nat) (value : List Char → Nat)
    (s : List Char) : Option (List Char × List Char) := do
  let digits := (s.take limit).takeWhile isDigit
  let rest ← strip? [';'] (s.drop digits.length)
  let c ← if digits.isEmpty then none else numbered? (value digits)
  return ([c], rest)

/-- The reference that a text starts with: the characters it stands for, and the
    rest. -/
def entity? (s : List Char) : Option (List Char × List Char) :=
  match s with
  | '&' :: '#' :: 'x' :: s | '&' :: '#' :: 'X' :: s =>
    numericReference? (fun c => (hexDigit? c).isSome) 6 hexValue s
  | '&' :: '#' :: s => numericReference? Char.isDigit 7 decimalValue s
  | '&' :: s => do
    let name := s.takeWhile Char.isAlphanum
    let rest ← strip? [';'] (s.drop name.length)
    let chars ← if name.isEmpty then none
      else lookupName? name 0 (entityNames.flatMap fun line => splitOn (· == ' ') line.toList)
    return (chars, rest)
  | _ => none

end CodeAtlas.Markdown
