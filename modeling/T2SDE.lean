import T2SDE.Lib.Text
import T2SDE.Lib.Awk
import T2SDE.Lib.Run
import T2SDE.CreatePkgQueue
import T2SDE.QueueScan
import T2SDE.QueueEmitted
import T2SDE.QueueLines
import T2SDE.QueueSafety
import T2SDE.QueueProgress
import T2SDE.QueuePaths
import T2SDE.BuildTree
import T2SDE.Lib.CString
import T2SDE.CmdWrapper
import T2SDE.WrapperItems
import T2SDE.WrapperLoops
import T2SDE.CleanEnv
import T2SDE.WrapperRewrite
import T2SDE.WrapperMain
import T2SDE.WrapperChain
import T2SDE.WrapperTwice
import T2SDE.WrapperPath
import T2SDE.WrapperFilter
import T2SDE.Lib.LuaPattern
import T2SDE.Lib.LuaMatch
import T2SDE.Lib.LuaSteps
import T2SDE.Lib.LuaSubst
import T2SDE.Lib.Glob
import T2SDE.Lib.ShellPattern
import T2SDE.Lib.Endings
import T2SDE.PkgList
import T2SDE.PkgLine
import T2SDE.PkgListRead
import T2SDE.PkgListFile
import T2SDE.PkgSwitch
import T2SDE.PkgGlob
import T2SDE.PkgSel
import T2SDE.PkgSwitchGlob
import T2SDE.PkgFilter
import T2SDE.BuildTarget
import T2SDE.TargetLoop
import T2SDE.QueueRuns
import T2SDE.QueueBroken
import T2SDE.UpdateVersion
import T2SDE.UpdateList
import T2SDE.ListedVersions
import T2SDE.InstallWrapper
import T2SDE.InstallLine
import T2SDE.InstallCopies
import T2SDE.InstallLeading
import T2SDE.FlWrapper
import T2SDE.FlSandbox
import T2SDE.FlAtPath
import T2SDE.FlRealpath
import T2SDE.FlNormal
import T2SDE.FlLexical
import T2SDE.FlInPlace
import T2SDE.FlFilter
import T2SDE.VarEdit
import T2SDE.VarRegex
import T2SDE.Lib.StableSort
import T2SDE.HookAdd
import T2SDE.PkgInstalled
import T2SDE.PkgChksum
import T2SDE.PkgChksumLines
import T2SDE.EmergePkg
import T2SDE.EmergeTraversal
import T2SDE.Parasim
import T2SDE.ParasimQueue
import T2SDE.ParasimRounds
import T2SDE.ParasimRuns
import T2SDE.FlLog
import T2SDE.Lib.Crash
import T2SDE.DependencyGraph
import T2SDE.DependencyArrows
import T2SDE.DownloadShell
import T2SDE.DownloadNames
import T2SDE.DownloadExit
import T2SDE.DownloadVerified
import T2SDE.SourceFile
import T2SDE.LuaBash
import T2SDE.LuaRegister
import T2SDE.ConfigFile
import T2SDE.SamConfig
import T2SDE.ConfigCycle
import T2SDE.Lib.ShellWord
import T2SDE.Lib.Echo
import T2SDE.ConfigLists
import T2SDE.ConfigSource
import T2SDE.GeneratedWrapper
import T2SDE.Inputbox
import T2SDE.TextItem
import T2SDE.Lib.Lines
import T2SDE.RuleFile
import T2SDE.MenuNesting
import T2SDE.ExpertBlocks
import T2SDE.ChoiceItem
import T2SDE.BuildJob
import T2SDE.CreatePkgList
import T2SDE.Hooks
import T2SDE.DescParsers
import T2SDE.TagParser
import T2SDE.DownloadTag
import T2SDE.PackageDb
import T2SDE.CreateISO
import T2SDE.DownloadList
import T2SDE.DownloadLock
import T2SDE.PkgSelFilter
import T2SDE.OutputPlugin
import T2SDE.SmartWrapper
import T2SDE.Lib.Xargs
import T2SDE.FileList
import T2SDE.GetFiles
import T2SDE.GetDu
import T2SDE.SamTokenize
import T2SDE.FileDependencies
import T2SDE.Lib.KeySort
import T2SDE.SharedFiles
import T2SDE.Lib.FileTree
import T2SDE.FlStparse
import T2SDE.FlWrparse
import T2SDE.StoredDesc
import T2SDE.StparseRuns
import T2SDE.UpdateMode
import T2SDE.ExecCurl
import T2SDE.CleanupBuild
import T2SDE.ActiveInterfaces
import T2SDE.Rocknet
import T2SDE.Getopt
import T2SDE.GetoptErrors
import T2SDE.Lib.Bre
import T2SDE.LingeringFiles
import T2SDE.Lib.FileStore
import T2SDE.BizeRemove
import T2SDE.GzLines
import T2SDE.Lib.ShellRead
import T2SDE.NetworkConfig
import T2SDE.NetworkSections
import T2SDE.Lib.Chain
import T2SDE.TargetChain
import T2SDE.Lib.SimplePath
import T2SDE.Depcheck
import T2SDE.Lib.Snprintf
import T2SDE.RcCommand
import T2SDE.SerPnp
import T2SDE.Btee
import T2SDE.LinkIdentical
import T2SDE.Lib.Removal
import T2SDE.UninstallPkg
import T2SDE.ProcessChain
import T2SDE.MD5
import T2SDE.FlExec
import T2SDE.BizeInstall
import T2SDE.Lib.FileWindow
import T2SDE.Lib.Places
import T2SDE.Lib.ScrolledRows
import T2SDE.TextBox
import T2SDE.MenuBox
import T2SDE.InputboxKeys
import T2SDE.CheckDeps
