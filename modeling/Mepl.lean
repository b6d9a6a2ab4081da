import Mepl.Base.Stream
import Mepl.C.Machine
import Mepl.Lib.Dstr
import Mepl.Lib.DstrRuns
import Mepl.Lib.DstrRep
import Mepl.Buf.Cursor
import Mepl.Buf.Strings
import Mepl.Buf.Unix
import Mepl.Buf.Stdio
import Mepl.Buf.Copy
import Mepl.Buf.Agree
import Mepl.Buf.UnixCuts
import Mepl.Buf.Cuts
import Mepl.Buf.Bounds
import Mepl.C.Chars
import Mepl.Lex.Model
import Mepl.Base.Alike
import Mepl.Lex.Step
import Mepl.Lex.Runs
import Mepl.Lex.Tokens
import Mepl.Lex.Grammar
import Mepl.Lex.Invariant
import Mepl.Lex.Ends
import Mepl.Lex.Compose
import Mepl.Lex.Output
import Mepl.Lex.Dispatch
import Mepl.Scripts.Hashgen
import Mepl.Ast.Tree
import Mepl.Ast.Gen
import Mepl.Ast.Dump
import Mepl.Base.Trie
import Mepl.Base.RedBlack
import Mepl.Base.Reach
import Mepl.Base.Chain
import Mepl.Ptrset.Bst
import Mepl.Ptrset.BstTree
import Mepl.Ptrset.Rotate
import Mepl.Ptrset.Rotations
import Mepl.Ptrset.Fix
import Mepl.Ptrset.Insert
import Mepl.Ptrset.Forest
import Mepl.Ptrset.Runs
import Mepl.Ptrset.Hash
import Mepl.Ptrset.HashWalk
import Mepl.Ptrset.HashRuns
import Mepl.Ptrset.Hashfn
import Mepl.Ptrset.Prime
import Mepl.Ptrset.Fixset
import Mepl.Ptrset.FixsetBytes
import Mepl.Ptrset.Dynarr
import Mepl.Ptrset.DynarrRuns
import Mepl.Ptrset.Listset
import Mepl.Ptrset.ListRuns
import Mepl.Ptrset.ListBytes
import Mepl.Ptrset.DynarrBytes
import Mepl.Ptrset.BstBytes
import Mepl.Ptrset.Bytes
import Mepl.Base.Dlist
import Mepl.Base.Cycles
import Mepl.Dynarr.Array
import Mepl.Dynarr.Runs
import Mepl.Alloc.Heap
import Mepl.Alloc.HeapNodes
import Mepl.Base.Bits
import Mepl.Base.Window
import Mepl.Base.Words
import Mepl.Base.Digits
import Mepl.Alloc.Bitset
import Mepl.Alloc.BitsetRuns
import Mepl.Alloc.Freelist
import Mepl.Alloc.FreelistRuns
import Mepl.Alloc.HoldOff
import Mepl.Alloc.SlabNodes
import Mepl.Alloc.SlabRuns
import Mepl.Alloc.Lists
import Mepl.Alloc.SlabRing
import Mepl.Slab.Stack
import Mepl.Slab.Table
import Mepl.Slab.TableRuns
import Mepl.Slab.TableLost
import Mepl.Scripts.HashgenTable
import Mepl.Scripts.HashgenEnds
import Mepl.Scripts.HashgenWords
import Mepl.Scripts.Slabtab
import Mepl.Base.Release
import Mepl.C.Free
import Mepl.Ptrset.Blocks
import Mepl.Ptrset.ListFree
import Mepl.Ptrset.FixsetFree
import Mepl.Ptrset.BstFree
import Mepl.Base.Mutex
import Mepl.Dynarr.Threads
import Mepl.Dynarr.ThreadRuns
import Mepl.Dynarr.ThreadEnds
import Mepl.Slab.TableSafe
import Mepl.Ptrset.HashGrowth
import Mepl.Ptrset.HashFree
import Mepl.Alloc.FreelistMain
import Mepl.Alloc.HeapPeak
import Mepl.Alloc.SlabLeak
import Mepl.Ast.GenAccepts
import Mepl.Ast.DumpLines
import Mepl.Ptrset.BstRounds
import Mepl.Ast.Spine
import Mepl.Ptrset.HashStat
import Mepl.Lib.DstrHeap
import Mepl.Slab.Types
import Mepl.Ptrset.DynarrFree
