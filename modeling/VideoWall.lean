import VideoWall.Drm.Card
import VideoWall.Vblank.Session
import VideoWall.Worker.Session
import VideoWall.Wall.Rest
import VideoWall.Proofs.Canvas
import VideoWall.Proofs.Truncation
import VideoWall.Proofs.Rounds
import VideoWall.Proofs.Rising
import VideoWall.Proofs.Mirror
import VideoWall.Proofs.Sequence
import VideoWall.Proofs.Refreshes
import VideoWall.Proofs.Recomputation
import VideoWall.Proofs.Fences
import VideoWall.Proofs.Pipelines
import VideoWall.Proofs.Extent
import VideoWall.Proofs.Configs
import VideoWall.Proofs.Outline
import VideoWall.Proofs.Isolation
import VideoWall.Proofs.Shutdown
import VideoWall.Proofs.Flushes
import VideoWall.Proofs.Iterations
import VideoWall.Proofs.Intervals
import VideoWall.Proofs.Labels
