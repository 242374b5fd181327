import SourceAtlas.CallGraph
import SourceAtlas.CallName
import SourceAtlas.CommandLine
import SourceAtlas.CommandLine.Help
import SourceAtlas.CommandLine.Request
import SourceAtlas.CommandLine.Switches
import SourceAtlas.Config
import SourceAtlas.Config.Stored
import SourceAtlas.Config.Written
import SourceAtlas.CrossReferences
import SourceAtlas.Diagram
import SourceAtlas.Docs
import SourceAtlas.Extraction
import SourceAtlas.Fault
import SourceAtlas.FileTree
import SourceAtlas.Fingerprint
import SourceAtlas.Glob
import SourceAtlas.GraphDocument
import SourceAtlas.IgnoreFile
import SourceAtlas.IgnoreRule
import SourceAtlas.Json
import SourceAtlas.Json.Reader
import SourceAtlas.Language
import SourceAtlas.Main
import SourceAtlas.Manifest
import SourceAtlas.Manifest.Stored
import SourceAtlas.Manifest.Written
import SourceAtlas.Noise
import SourceAtlas.Page
import SourceAtlas.PagePlan
import SourceAtlas.PageTemplates
import SourceAtlas.ParsedFile
import SourceAtlas.Pass
import SourceAtlas.Path
import SourceAtlas.Project
import SourceAtlas.Proofs.Agreement
import SourceAtlas.Proofs.Analysis
import SourceAtlas.Proofs.CallGraph
import SourceAtlas.Proofs.CrossReferences
import SourceAtlas.Proofs.CurrentManifest
import SourceAtlas.Proofs.Dates
import SourceAtlas.Proofs.Decimal
import SourceAtlas.Proofs.DeclaredCalls
import SourceAtlas.Proofs.Definitions
import SourceAtlas.Proofs.Descent
import SourceAtlas.Proofs.Diagram
import SourceAtlas.Proofs.Disk
import SourceAtlas.Proofs.Docs
import SourceAtlas.Proofs.DocumentOrder
import SourceAtlas.Proofs.DryRun
import SourceAtlas.Proofs.EntityPages
import SourceAtlas.Proofs.Evaluation
import SourceAtlas.Proofs.Extraction
import SourceAtlas.Proofs.FailOnChanges
import SourceAtlas.Proofs.FilePage
import SourceAtlas.Proofs.FileTree
import SourceAtlas.Proofs.Flowchart
import SourceAtlas.Proofs.FreshDocs
import SourceAtlas.Proofs.Idle
import SourceAtlas.Proofs.Incremental
import SourceAtlas.Proofs.IndexPaths
import SourceAtlas.Proofs.Insertions
import SourceAtlas.Proofs.Interleaving
import SourceAtlas.Proofs.Isolation
import SourceAtlas.Proofs.Json
import SourceAtlas.Proofs.Links
import SourceAtlas.Proofs.LivePages
import SourceAtlas.Proofs.Manifest
import SourceAtlas.Proofs.Merging
import SourceAtlas.Proofs.MirroredCalls
import SourceAtlas.Proofs.Noise
import SourceAtlas.Proofs.OpenWays
import SourceAtlas.Proofs.Outcomes
import SourceAtlas.Proofs.Overview
import SourceAtlas.Proofs.OwnFiles
import SourceAtlas.Proofs.PageContext
import SourceAtlas.Proofs.PageEdits
import SourceAtlas.Proofs.PagePlaces
import SourceAtlas.Proofs.PagePlan
import SourceAtlas.Proofs.Pass
import SourceAtlas.Proofs.Path
import SourceAtlas.Proofs.PathParts
import SourceAtlas.Proofs.PrintedReport
import SourceAtlas.Proofs.Ranking
import SourceAtlas.Proofs.Reanalysis
import SourceAtlas.Proofs.Recording
import SourceAtlas.Proofs.Rendering
import SourceAtlas.Proofs.Run
import SourceAtlas.Proofs.RunEndings
import SourceAtlas.Proofs.SameSources
import SourceAtlas.Proofs.SecondPass
import SourceAtlas.Proofs.Snapshots
import SourceAtlas.Proofs.SourceIndex
import SourceAtlas.Proofs.Staleness
import SourceAtlas.Proofs.StepEffects
import SourceAtlas.Proofs.StoredPages
import SourceAtlas.Proofs.SyntaxTree
import SourceAtlas.Proofs.Table
import SourceAtlas.Proofs.Timestamp
import SourceAtlas.Proofs.Turns
import SourceAtlas.Proofs.UsedBy
import SourceAtlas.Proofs.Walk
import SourceAtlas.Source
import SourceAtlas.SourceIndex
import SourceAtlas.Staleness
import SourceAtlas.SyntaxTree
import SourceAtlas.SyntaxTree.TreeBank
import SourceAtlas.Template
import SourceAtlas.Template.Reader
import SourceAtlas.Text.Blank
import SourceAtlas.Text.CaseTables
import SourceAtlas.Text.Decimal
import SourceAtlas.Text.Hex
import SourceAtlas.Text.Lowercase
import SourceAtlas.Timestamp
import SourceAtlas.Toml
import SourceAtlas.Toml.Quoted
import SourceAtlas.Toml.Reader
import SourceAtlas.Toml.Scalar
